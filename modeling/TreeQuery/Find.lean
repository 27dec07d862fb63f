import TreeQuery.Datum.Walk
import TreeQuery.Enumerator.Advance

/-! Matching at the root of a datum, and matching anywhere in it. -/

namespace TreeQuery

variable {D K H : Type}

def findWith (datum : D) (pattern : Pattern D K H) (config : MatchConfig) : Enumerator D K H :=
  .new datum pattern config

def find (datum : D) (pattern : Pattern D K H) : Enumerator D K H := findWith datum pattern {}

def Results.toMaps (results : Results (Env D)) : Results (Std.TreeMap String D) :=
  ⟨results.items.map Env.toMap, results.ending⟩

/-- A search of all nodes of a datum: the enumeration at the node it has reached, and the walk over
the nodes to come. -/
structure Search (D K H : Type) where
  pattern : Pattern D K H
  current : Option (Enumerator D K H)
  walk : Walk D

structure SearchReply (D K H α : Type) where
  answer : α
  events : List (Event D K H)
  search : Search D K H

def search (root : D) (pattern : Pattern D K H) : Search D K H := ⟨pattern, none, .ofRoot root⟩

namespace Search

variable [TreeLike D K] [BEq D] [BEq K]

def nextHere (host : Host D K H) (fuel : Nat) (s : Search D K H) :
    Option (SearchReply D K H (Option (Except MatchError (Env D)))) :=
  match s.current with
  | none => some ⟨none, [], s⟩
  | some e =>
    (e.next host fuel).map fun reply =>
      ⟨reply.answer, reply.events, { s with current := some reply.enumerator }⟩

def next (host : Host D K H) (fuel : Nat) (s : Search D K H) :
    Option (SearchReply D K H (Option (Except MatchError (Env D)))) := do
  let reply ← s.nextHere host fuel
  match reply.answer with
  | some _ => some reply
  | none =>
    match visited : s.walk.next? with
    | none => some { reply with search := { s with current := none } }
    | some (datum, walk) =>
      have := Walk.size_of_next? visited
      let rest ← next host fuel { s with current := some (find datum s.pattern), walk }
      some { rest with events := reply.events ++ rest.events }
termination_by s.walk.size

/-- At most `limit` items; an error is an item like others and the search goes on after it. -/
def take (host : Host D K H) (fuel : Nat) :
    Nat → Search D K H →
      Option (SearchReply D K H (Results (Except MatchError (Env D))))
  | 0, s => some ⟨⟨[], .limit⟩, [], s⟩
  | limit + 1, s => do
    let reply ← s.next host fuel
    match reply.answer with
    | none => some { reply with answer := ⟨[], .exhausted⟩ }
    | some item =>
      let rest ← take host fuel limit reply.search
      some { rest with
        answer := { rest.answer with items := item :: rest.answer.items }
        events := reply.events ++ rest.events }

end Search

end TreeQuery
