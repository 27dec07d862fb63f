import TreeQuery.Pattern.Kind
import TreeQuery.Text

/-! The written form of patterns and of their kinds. -/

namespace TreeQuery

variable {D K H : Type} [HasText D] [HasText K]

namespace Pattern

mutual

def display : Pattern D K H → String
  | wild => "_"
  | atom value => HasText.text value
  | capture name => "$" ++ name
  | template name => "=" ++ name
  | node kind items => HasText.text kind ++ "(" ++ " ".intercalate (displayAll items) ++ ")"
  | contents items => "(" ++ " ".intercalate (displayAll items) ++ ")"
  | ofKind kind => HasText.text kind ++ "(..)"
  | and left right => "(" ++ display left ++ " & " ++ display right ++ ")"
  | or left right => "(" ++ display left ++ " | " ++ display right ++ ")"
  | mark => ">"
  | path steps => "path[" ++ ", ".intercalate (displayAll steps) ++ "]"
  | window items => "window[" ++ " ".intercalate (displayAll items) ++ "]"
  | test _ => "<pred>"
  | generate _ => "<with>"

def displayAll : List (Pattern D K H) → List String
  | [] => []
  | p :: ps => display p :: displayAll ps

end

/-- A pattern as a datum is told apart from a pattern that is displayed. -/
instance : HasText (Pattern D K H) := ⟨fun p => "Pattern(" ++ display p ++ ")"⟩

end Pattern

namespace PatternKind

def tokenText (name : String) : String := "Token(_ -> \"" ++ name ++ "\")"

instance : HasText (PatternKind D K) where
  text
    | wild => "Wild"
    | atom value => "Atom(" ++ HasText.text value ++ ")"
    | capture name => "Capture(" ++ tokenText name ++ ")"
    | template name => "TemplateVar(" ++ tokenText name ++ ")"
    | node kind => "Exact(" ++ HasText.text kind ++ ")"
    | contents => "Contents"
    | ofKind kind => "Kind(" ++ HasText.text kind ++ ")"
    | and => "And"
    | or => "Or"
    | mark => "PathNext"
    | path => "Path"
    | window => "SubContentPath"
    | test => "Predicate"
    | generate => "MatchWith"

end PatternKind

end TreeQuery
