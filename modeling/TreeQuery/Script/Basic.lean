import TreeQuery.Host
import TreeQuery.Script.Generator

/-! A script holds the tests and the generators that patterns refer to, and named definitions. -/

namespace TreeQuery

structure Script (D K : Type) where
  tests : Array (Test D K) := #[]
  generators : Array (Generator D K) := #[]
  definitions : Array (Pattern D K Handle) := #[]

/-- What a call of a test or of a generator with a tag leaves behind. -/
inductive Record (D : Type) where
  | datum (tag : String) (value : D)
  | env (tag : String) (value : Env D)

namespace Script

variable {D K : Type}

/-- Every test that is added is a function of its own, equal to no other. -/
def addTest (script : Script D K) (test : Test D K) : Pattern D K Handle × Script D K :=
  (.test (.site script.tests.size), { script with tests := script.tests.push test })

def addGenerator (script : Script D K) (generator : Generator D K) :
    Pattern D K Handle × Script D K :=
  (.generate (.site script.generators.size),
    { script with generators := script.generators.push generator })

def addNever (script : Script D K) : Pattern D K Handle × Script D K :=
  script.addTest (.const false)

def addAny (script : Script D K) (patterns : List (Pattern D K Handle)) :
    Pattern D K Handle × Script D K :=
  match patterns with
  | [] => script.addNever
  | p :: ps => (.any .never (p :: ps), script)

def define (script : Script D K) (pattern : Pattern D K Handle) : Script D K :=
  { script with definitions := script.definitions.push pattern }

variable [TreeLike D K] [BEq D] [BEq K] [HasInt D]

def host (script : Script D K) : Host D K Handle where
  test handle datum :=
    match handle with
    | .site index => (script.tests[index]?).elim (.ok false) (Test.run datum)
    | .never => .ok false
    | .isInt value => .ok (HasInt.int? datum == some value)
  generate handle env :=
    match handle with
    | .site index =>
      (script.generators[index]?).elim (.ok (.test .never)) (Generator.run script.definitions env)
    | .never | .isInt _ => .ok (.test .never)

def records (script : Script D K) : Call D Handle → List (Record D)
  | .test (.site index) datum =>
    (script.tests[index]?).elim [] fun test => test.tags.map fun tag => .datum tag datum
  | .generate (.site index) env =>
    (script.generators[index]?).elim [] fun generator =>
      generator.tags.map fun tag => .env tag env
  | _ => []

end Script

instance {D K H : Type} : HasInt (Pattern D K H) := ⟨fun _ => none⟩

end TreeQuery
