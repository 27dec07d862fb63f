import TreeQuery.Config
import TreeQuery.Env
import TreeQuery.Event
import TreeQuery.Pattern.Basic

/-! The state of an enumeration: the branch being explored, and the choice points it can go back
to when that branch fails or more solutions are wanted. -/

namespace TreeQuery

inductive Goal (D K H : Type) where
  | pattern (pattern : Pattern D K H)
  | path (steps : List (Pattern D K H)) (step : Nat)

structure Task (D K H : Type) where
  datum : D
  goal : Goal D K H

/-- A branch of the search. The first task of `work` comes next; `marks` are the data selected for
the next step of the enclosing path. -/
structure Frame (D K H : Type) where
  captures : Env D
  work : List (Task D K H)
  marks : List D

/-- A path at one of its steps, with the work and the marks of the branch the path belongs to. -/
structure Leg (D K H : Type) where
  work : List (Task D K H)
  marks : List D
  steps : List (Pattern D K H)
  step : Nat

/-- Whether the current frame is still to be explored, holds a solution that was handed out, or
nothing more is to be found. -/
inductive Progress where
  | searching
  | yielded
  | exhausted
  deriving DecidableEq

mutual

/-- A point to go back to: a branch not yet explored, or a step of a path whose own enumeration
may have further solutions. -/
inductive Choice (D K H : Type) where
  | resume (frame : Frame D K H)
  | tail (leg : Leg D K H) (nested : Enumerator D K H)

structure Enumerator (D K H : Type) where
  root : D
  pattern : Pattern D K H
  seed : Env D
  config : MatchConfig
  frame : Frame D K H
  choices : List (Choice D K H)
  progress : Progress

end

variable {D K H : Type}

def Task.ofPattern (datum : D) (pattern : Pattern D K H) : Task D K H := ⟨datum, .pattern pattern⟩

namespace Frame

def seeded (root : D) (pattern : Pattern D K H) (seed : Env D) : Frame D K H :=
  ⟨seed, [.ofPattern root pattern], []⟩

def push (frame : Frame D K H) (tasks : List (Task D K H)) : Frame D K H :=
  { frame with work := tasks ++ frame.work }

end Frame

namespace Enumerator

def seeded (root : D) (pattern : Pattern D K H) (seed : Env D) (config : MatchConfig) :
    Enumerator D K H :=
  ⟨root, pattern, seed, config, .seeded root pattern seed, [], .searching⟩

def new (root : D) (pattern : Pattern D K H) (config : MatchConfig) : Enumerator D K H :=
  seeded root pattern .empty config

def reset (e : Enumerator D K H) : Enumerator D K H :=
  { e with frame := .seeded e.root e.pattern e.seed, choices := [], progress := .searching }

def note (e : Enumerator D K H) (note : Note D K H) : List (Event D K H) :=
  if e.config.logger.isActive then [.noted note] else []

/-- Goes on with the frame `live` and saves the other frames, the first of them to be explored
first. -/
def branch (e : Enumerator D K H) (live : Frame D K H) (others : List (Frame D K H)) :
    Enumerator D K H :=
  { e with frame := live, choices := others.map .resume ++ e.choices }

def branchNotes (e : Enumerator D K H) (count : Nat) : List (Event D K H) :=
  (List.range count).flatMap fun i => e.note (.choicePoint (e.choices.length + i + 1))

end Enumerator

end TreeQuery
