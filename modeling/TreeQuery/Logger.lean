import TreeQuery.Text

/-! Loggers: where the messages of a search go, and what they leave in a log file. -/

namespace TreeQuery

inductive LogTarget where
  | stderr
  | file (path : String)
  | discard
  deriving DecidableEq

instance : HasText LogTarget where
  text
    | .stderr => "StdErr"
    | .file path => "File(\"" ++ path ++ "\")"
    | .discard => "Discard"

structure Logger where
  target : LogTarget := .discard
  deriving DecidableEq

/-- The file behind a logger. One that cannot be opened never receives anything. -/
structure LogFile where
  writable : Bool := true
  content : String := ""

def LogFile.lines (file : LogFile) : List String := (file.content.splitOn "\n").dropLast

namespace Logger

instance : HasText Logger := ⟨fun logger => "Logger(" ++ HasText.text logger.target ++ ")"⟩

def isActive (logger : Logger) : Bool := logger.target != .discard

def log (logger : Logger) (message : String) (file : LogFile) : LogFile :=
  match logger.target with
  | .file _ =>
    if file.writable then { file with content := file.content ++ message ++ "\n" } else file
  | .stderr | .discard => file

/-- Builds the message only if it is going to be written; says whether it was built. -/
def logWith (logger : Logger) (message : Unit → String) (file : LogFile) : Bool × LogFile :=
  if logger.isActive then (true, logger.log (message ()) file) else (false, file)

end Logger

end TreeQuery
