import TreeQuery.Host
import TreeQuery.Logger
import TreeQuery.Pattern.Display

/-! What a search does that can be seen from outside: calls of host functions, and notes for the
trace. -/

namespace TreeQuery

inductive Note (D K H : Type) where
  | pathStep (step : Nat) (pattern : Pattern D K H)
  | barrenStep (step : Nat)
  | backtrack (left : Nat)
  | choicePoint (count : Nat)
  | solution (env : Env D)
  | exhausted

inductive Event (D K H : Type) where
  | called (call : Call D H)
  | noted (note : Note D K H)

variable {D K H : Type}

namespace Event

def call? : Event D K H → Option (Call D H)
  | called call => some call
  | noted _ => none

def note? : Event D K H → Option (Note D K H)
  | noted note => some note
  | called _ => none

end Event

section Text

variable [HasText D] [HasText K]

instance : HasText (Note D K H) where
  text
    | .pathStep step pattern => "path step " ++ toString step ++ ": " ++ pattern.display
    | .barrenStep step => "path step " ++ toString step ++ " has no solutions"
    | .backtrack left => "backtrack, " ++ toString left ++ " choice(s) left"
    | .choicePoint count => "choice point #" ++ toString count
    | .solution env => "solution " ++ HasText.text env
    | .exhausted => "search exhausted"

def Logger.logEvents (logger : Logger) (events : List (Event D K H)) (file : LogFile) : LogFile :=
  (events.filterMap Event.note?).foldl (fun file note => logger.log (HasText.text note) file) file

end Text

end TreeQuery
