import TreeQuery.Enumerator.Outcome

/-! The machine that drives an enumeration from one solution to the next, one step at a time. A
step of a path is solved by an enumeration of its own, for whose answer the outer one waits. -/

namespace TreeQuery

/-- What the active enumeration does next: perform a task, go back to a choice point, or answer
that there is nothing more. When it runs out of choice points it notes so if `announce` is set. -/
inductive Phase where
  | working
  | retreating (announce : Bool)
  | spent
  deriving DecidableEq

def Phase.ofProgress : Progress → Phase
  | .searching => working
  | .yielded => retreating false
  | .exhausted => spent

/-- Why an enumeration waits: it has just begun a step of a path, or it went back to one. -/
inductive Origin where
  | first
  | again (announce : Bool)
  deriving DecidableEq

structure Waiting (D K H : Type) where
  outer : Enumerator D K H
  leg : Leg D K H
  origin : Origin

/-- The active enumeration and those that wait for it, the innermost first. -/
structure Machine (D K H : Type) where
  active : Enumerator D K H
  phase : Phase
  waiting : List (Waiting D K H)

/-- A machine halts with the answer of the outermost enumeration, which is whether it has found a
solution, and with its new state. -/
inductive Turn (D K H : Type) where
  | next (machine : Machine D K H)
  | halt (answer : Except MatchError Bool) (e : Enumerator D K H)

variable {D K H : Type}

namespace Leg

def frame (leg : Leg D K H) (captures : Env D) (goals : List (Task D K H)) : Frame D K H :=
  ⟨captures, goals ++ leg.work, leg.marks⟩

def next (leg : Leg D K H) (mark : D) : Task D K H := ⟨mark, .path leg.steps (leg.step + 1)⟩

/-- A step that marks nothing although further steps follow is an error if paths are strict. -/
def dangling? (leg : Leg D K H) (config : MatchConfig) (marks : List D) : Option MatchError :=
  if config.strictPaths && marks.isEmpty && leg.step + 1 < leg.steps.length then
    some (.danglingPath leg.step (leg.steps.length - (leg.step + 1)))
  else none

def exits (leg : Leg D K H) (captures : Env D) (marks : List D) :
    Frame D K H × List (Frame D K H) :=
  match marks with
  | [] => (leg.frame captures [], [])
  | mark :: marks =>
    (leg.frame captures [leg.next mark], marks.map fun mark => leg.frame captures [leg.next mark])

end Leg

namespace Enumerator

/-- Takes over the solution that `nested` has found for a step of a path. The choice point for the
further solutions of the step lies below those for the marks of this one. -/
def adopt (e : Enumerator D K H) (leg : Leg D K H) (nested : Enumerator D K H) :
    List (Event D K H) × Enumerator D K H :=
  let saved := { e with choices := .tail leg nested :: e.choices }
  let (live, others) := leg.exits nested.frame.captures nested.frame.marks
  (saved.branchNotes others.length, saved.branch live others)

end Enumerator

namespace Machine

def ask (e : Enumerator D K H) (waiting : List (Waiting D K H)) : Machine D K H :=
  ⟨e, .ofProgress e.progress, waiting⟩

def outermost (m : Machine D K H) : Enumerator D K H :=
  (m.waiting.getLast?.map Waiting.outer).getD m.active

def abort (m : Machine D K H) (error : MatchError) : Turn D K H :=
  .halt (.error error) { m.outermost with progress := .exhausted }

/-- The active enumeration has a solution. The one that waits for it takes the solution over even if
its path is found to dangle. -/
def found (m : Machine D K H) : List (Event D K H) × Turn D K H :=
  let nested := { m.active with progress := .yielded }
  match m.waiting with
  | [] => ([], .halt (.ok true) nested)
  | w :: rest =>
    let (events, outer) := w.outer.adopt w.leg nested
    let m : Machine D K H := ⟨outer, .working, rest⟩
    (events,
      match w.leg.dangling? w.outer.config nested.frame.marks with
      | some error => m.abort error
      | none => .next m)

def failed (m : Machine D K H) : List (Event D K H) × Turn D K H :=
  match m.waiting with
  | [] => ([], .halt (.ok false) { m.active with progress := .exhausted })
  | w :: rest =>
    match w.origin with
    | .first => (w.outer.note (.barrenStep w.leg.step), .next ⟨w.outer, .retreating true, rest⟩)
    | .again announce => ([], .next ⟨w.outer, .retreating announce, rest⟩)

def retreat (m : Machine D K H) (announce : Bool) : List (Event D K H) × Turn D K H :=
  match m.active.choices with
  | [] =>
    let (events, turn) := m.failed
    ((if announce then m.active.note .exhausted else []) ++ events, turn)
  | choice :: choices =>
    let active := { m.active with choices }
    (active.note (.backtrack choices.length),
      match choice with
      | .resume frame => .next ⟨{ active with frame }, .working, m.waiting⟩
      | .tail leg nested => .next (.ask nested (⟨active, leg, .again announce⟩ :: m.waiting)))

def settle (m : Machine D K H) : Outcome D K H → List (Event D K H) × Turn D K H
  | .proceed live others =>
    (m.active.branchNotes others.length,
      .next ⟨m.active.branch live others, .working, m.waiting⟩)
  | .fail => ([], .next ⟨m.active, .retreating true, m.waiting⟩)
  | .abort error => ([], m.abort error)
  | .descend datum pattern leg =>
    (m.active.note (.pathStep leg.step pattern),
      .next (.ask (.seeded datum pattern m.active.frame.captures m.active.config)
        (⟨m.active, leg, .first⟩ :: m.waiting)))

variable [TreeLike D K] [BEq D] [BEq K]

def work (host : Host D K H) (m : Machine D K H) : List (Event D K H) × Turn D K H :=
  match m.active.frame.work with
  | [] =>
    let (events, turn) := m.found
    (m.active.note (.solution m.active.frame.captures) ++ events, turn)
  | task :: work =>
    let frame := { m.active.frame with work }
    let (calls, outcome) := frame.perform host m.active.config task
    let (events, turn) := settle { m with active := { m.active with frame } } outcome
    (calls ++ events, turn)

def step (host : Host D K H) (m : Machine D K H) : List (Event D K H) × Turn D K H :=
  match m.phase with
  | .working => m.work host
  | .retreating announce => m.retreat announce
  | .spent => m.failed

end Machine

end TreeQuery
