import TreeQuery.Find

/-! Sessions: several enumerations under names of their own, advanced in any order. -/

namespace TreeQuery

inductive Command (D K H : Type) where
  | start (datum : D) (pattern : Pattern D K H) (config : MatchConfig)
  | advance
  | take (limit : Nat)
  | reset
  | discard

inductive Response (D : Type) where
  | started
  | advanced (answer : Except MatchError (Option (Env D)))
  | taken (results : Results (Env D))
  | rewound
  | discarded

structure Session (D K H : Type) where
  slots : List (String × Enumerator D K H) := []

structure SessionReply (D K H : Type) where
  response : Response D
  events : List (Event D K H)
  config : MatchConfig
  session : Session D K H

namespace Session

variable {D K H : Type}

def get? (session : Session D K H) (slot : String) : Option (Enumerator D K H) :=
  session.slots.lookup slot

def erase (session : Session D K H) (slot : String) : Session D K H :=
  ⟨session.slots.filter (·.1 != slot)⟩

def put (session : Session D K H) (slot : String) (e : Enumerator D K H) : Session D K H :=
  ⟨(slot, e) :: (session.erase slot).slots⟩

variable [TreeLike D K] [BEq D] [BEq K]

def perform (host : Host D K H) (fuel : Nat) (session : Session D K H) (slot : String) :
    Command D K H → Option (SessionReply D K H)
  | .start datum pattern config =>
    some ⟨.started, [], config, session.put slot (findWith datum pattern config)⟩
  | .advance => do
    let e ← session.get? slot
    let reply ← e.advance host fuel
    some ⟨.advanced reply.answer, reply.events, e.config, session.put slot reply.enumerator⟩
  | .take limit => do
    let e ← session.get? slot
    let reply ← e.take host fuel limit
    some ⟨.taken reply.answer, reply.events, e.config, session.put slot reply.enumerator⟩
  | .reset => do
    let e ← session.get? slot
    some ⟨.rewound, [], e.config, session.put slot e.reset⟩
  | .discard => do
    let e ← session.get? slot
    some ⟨.discarded, [], e.config, session.erase slot⟩

end Session

end TreeQuery
