import TreeQuery.Datum.Basic
import TreeQuery.Enumerator.Basic
import TreeQuery.Host

/-! The rules of matching: how each pattern turns out on a datum. -/

namespace TreeQuery

/-- How a task turns out. It may leave a branch to go on with and other branches to try after it,
or ask first for the solutions of one step of a path. -/
inductive Outcome (D K H : Type) where
  | proceed (live : Frame D K H) (others : List (Frame D K H))
  | fail
  | abort (error : MatchError)
  | descend (datum : D) (pattern : Pattern D K H) (leg : Leg D K H)

def windows {α : Type} (width : Nat) (items : List α) : List (List α) :=
  (List.range (items.length + 1 - width)).map fun start => (items.drop start).take width

variable {D K H : Type}

namespace Outcome

def ofBool (frame : Frame D K H) (holds : Bool) : Outcome D K H :=
  if holds then .proceed frame [] else .fail

def ofFrames : List (Frame D K H) → Outcome D K H
  | [] => .fail
  | live :: others => .proceed live others

end Outcome

namespace Frame

def pushPairs (frame : Frame D K H) (data : List D) (items : List (Pattern D K H)) :
    Frame D K H :=
  frame.push (List.zipWith .ofPattern data items)

def matchChildren (frame : Frame D K H) (data : List D) (items : List (Pattern D K H)) :
    Outcome D K H :=
  if data.length == items.length then .proceed (frame.pushPairs data items) [] else .fail

def follow (frame : Frame D K H) (datum : D) (steps : List (Pattern D K H)) (step : Nat) :
    Outcome D K H :=
  match steps[step]? with
  | none => .proceed frame []
  | some pattern => .descend datum pattern ⟨frame.work, frame.marks, steps, step⟩

variable [TreeLike D K] [BEq D] [BEq K]

/-- The outcome of a pattern on a datum, on a branch whose remaining work is that of `frame`. -/
def apply (host : Host D K H) (config : MatchConfig) (frame : Frame D K H) (datum : D) :
    Pattern D K H → Outcome D K H
  | .wild => .proceed frame []
  | .atom value => .ofBool frame (datum == value)
  | .capture name => .proceed { frame with captures := frame.captures.bind name datum } []
  | .template name =>
    match frame.captures.get? name with
    | some bound => .ofBool frame (bound == datum)
    | none => if config.strictTemplates then .abort (.unboundTemplate name) else .fail
  | .node kind items =>
    if TreeLike.kind datum == kind then frame.matchChildren (TreeLike.children datum) items
    else .fail
  | .contents items => frame.matchChildren (TreeLike.children datum) items
  | .ofKind kind => .ofBool frame (TreeLike.kind datum == kind)
  | .and left right => .proceed (frame.push [.ofPattern datum left, .ofPattern datum right]) []
  | .or left right =>
    .proceed (frame.push [.ofPattern datum left]) [frame.push [.ofPattern datum right]]
  | .mark => .proceed { frame with marks := frame.marks ++ [datum] } []
  | .path steps => frame.follow datum steps 0
  | .window items =>
    .ofFrames ((windows items.length (TreeLike.children datum)).map (frame.pushPairs · items))
  | .test handle =>
    match host.test handle datum with
    | .ok holds => .ofBool frame holds
    | .error error => .abort error
  | .generate handle =>
    match host.generate handle frame.captures with
    | .ok pattern => .proceed (frame.push [.ofPattern datum pattern]) []
    | .error error => .abort error

def calls (frame : Frame D K H) (datum : D) : Pattern D K H → List (Event D K H)
  | .test handle => [.called (.test handle datum)]
  | .generate handle => [.called (.generate handle frame.captures)]
  | _ => []

def perform (host : Host D K H) (config : MatchConfig) (frame : Frame D K H)
    (task : Task D K H) : List (Event D K H) × Outcome D K H :=
  match task.goal with
  | .pattern pattern =>
    (frame.calls task.datum pattern, frame.apply host config task.datum pattern)
  | .path steps step => ([], frame.follow task.datum steps step)

end Frame

end TreeQuery
