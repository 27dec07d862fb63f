import TreeQuery.Enumerator.Machine

/-! Asking an enumeration for its solutions. A pattern that generates patterns may search for
ever, so each request comes with fuel, the number of machine steps it may take. -/

namespace TreeQuery

/-- What a request leaves: its answer, the events on the way, and the enumeration to go on with. -/
structure Reply (D K H α : Type) where
  answer : α
  events : List (Event D K H)
  enumerator : Enumerator D K H

inductive Ending where
  | exhausted
  | limit
  | failed (error : MatchError)
  deriving DecidableEq

structure Results (α : Type) where
  items : List α
  ending : Ending

variable {D K H : Type} [TreeLike D K] [BEq D] [BEq K]

def Machine.run (host : Host D K H) :
    Nat → Machine D K H → Array (Event D K H) → Option (Reply D K H (Except MatchError Bool))
  | 0, _, _ => none
  | fuel + 1, m, log =>
    match m.step host with
    | (events, .next m) => Machine.run host fuel m (log.appendList events)
    | (events, .halt answer e) => some ⟨answer, (log.appendList events).toList, e⟩

namespace Enumerator

def solve (host : Host D K H) (fuel : Nat) (e : Enumerator D K H) :
    Option (Reply D K H (Except MatchError Bool)) :=
  Machine.run host fuel (.ask e []) #[]

/-- The bindings of the next solution, or `none` if there is none. After an error there is none
until the enumeration is reset. -/
def advance (host : Host D K H) (fuel : Nat) (e : Enumerator D K H) :
    Option (Reply D K H (Except MatchError (Option (Env D)))) :=
  (e.solve host fuel).map fun reply =>
    { reply with
      answer := reply.answer.map fun found =>
        if found then some reply.enumerator.frame.captures else none }

def next (host : Host D K H) (fuel : Nat) (e : Enumerator D K H) :
    Option (Reply D K H (Option (Except MatchError (Env D)))) :=
  (e.advance host fuel).map fun reply =>
    { reply with
      answer :=
        match reply.answer with
        | .ok env => env.map .ok
        | .error error => some (.error error) }

/-- Takes solutions one after the other, at most `limit` of them, and asks for none beyond. -/
def take (host : Host D K H) (fuel : Nat) :
    Nat → Enumerator D K H → Option (Reply D K H (Results (Env D)))
  | 0, e => some ⟨⟨[], .limit⟩, [], e⟩
  | limit + 1, e => do
    let reply ← e.advance host fuel
    match reply.answer with
    | .error error => some { reply with answer := ⟨[], .failed error⟩ }
    | .ok none => some { reply with answer := ⟨[], .exhausted⟩ }
    | .ok (some env) =>
      let rest ← take host fuel limit reply.enumerator
      some { rest with
        answer := { rest.answer with items := env :: rest.answer.items }
        events := reply.events ++ rest.events }

end Enumerator

end TreeQuery
