import TreeQuery.Pattern.Display

/-! How patterns are written, the same for all of them: an opening, and then the parts between brackets,
with separators. All but the parts belongs to the kind. -/

namespace TreeQuery

inductive Bracket where
  | none
  | dots
  | round
  | square

namespace Bracket

def left : Bracket → List Char
  | none => []
  | dots => ['(', '.', '.']
  | round => ['(']
  | square => ['[']

def right : Bracket → List Char
  | none => []
  | dots | round => [')']
  | square => [']']

end Bracket

variable {D K H : Type}

namespace PatternKind

def bracket : PatternKind D K → Bracket
  | node _ | contents | and | or => .round
  | ofKind _ => .dots
  | path | window => .square
  | _ => .none

def separator : PatternKind D K → List Char
  | and => [' ', '&', ' ']
  | or => [' ', '|', ' ']
  | path => [',', ' ']
  | _ => [' ']

def paired : PatternKind D K → Bool
  | and | or => true
  | _ => false

variable [HasText D] [HasText K]

def opening : PatternKind D K → List Char
  | wild => ['_']
  | atom value => (HasText.text value).toList
  | capture name => '$' :: name.toList
  | template name => '=' :: name.toList
  | node kind | ofKind kind => (HasText.text kind).toList
  | contents | and | or => []
  | mark => ['>']
  | path => ['p', 'a', 't', 'h']
  | window => ['w', 'i', 'n', 'd', 'o', 'w']
  | test => ['<', 'p', 'r', 'e', 'd', '>']
  | generate => ['<', 'w', 'i', 't', 'h', '>']

end PatternKind

namespace Pattern

variable {p : Pattern D K H}

theorem children_of_none (bare : p.kind.bracket = .none) : p.children = [] := by
  cases p with
  | node | contents | and | or | path | window => cases bare
  | _ => rfl

theorem length_of_paired (paired : p.kind.paired = true) : p.children.length = 2 := by
  cases p with
  | and | or => rfl
  | _ => cases paired

variable [HasText D] [HasText K]

def letters (p : Pattern D K H) : List Char := p.display.toList

theorem map_toList_displayAll (ps : List (Pattern D K H)) :
    (displayAll ps).map String.toList = ps.map letters := by
  induction ps with
  | nil => rfl
  | cons p ps ih => rw [displayAll, List.map_cons, ih, List.map_cons, letters]

def inside (p : Pattern D K H) : List Char :=
  p.kind.bracket.left ++
    (p.kind.separator.intercalate (p.children.map letters) ++ p.kind.bracket.right)

theorem letters_eq (p : Pattern D K H) : p.letters = p.kind.opening ++ p.inside := by
  cases p <;> simp [letters, inside, display, kind, children, PatternKind.opening,
    PatternKind.bracket, PatternKind.separator, Bracket.left, Bracket.right, map_toList_displayAll]

theorem inside_of_none (bare : p.kind.bracket = .none) : p.inside = [] := by
  rw [inside, children_of_none bare, bare]
  rfl

/-- The patterns after the first of several, each with what separates it from the one before. -/
def later (separator : List Char) (ps : List (Pattern D K H)) : List Char :=
  ps.flatMap fun p => separator ++ p.letters

theorem intercalate_cons (separator : List Char) (p : Pattern D K H) (ps : List (Pattern D K H)) :
    separator.intercalate ((p :: ps).map letters) = p.letters ++ later separator ps := by
  induction ps generalizing p with
  | nil => simp [later]
  | cons q ps ih =>
      have next := ih q
      rw [List.map_cons] at next
      rw [List.map_cons, List.map_cons, List.intercalate_cons_cons, next, later, later,
        List.flatMap_cons, List.append_assoc, List.append_assoc]

theorem later_cons (separator : List Char) (p : Pattern D K H) (ps : List (Pattern D K H))
    (text : List Char) : later separator (p :: ps) ++ text =
      separator ++ (p.letters ++ (later separator ps ++ text)) := by
  rw [later, List.flatMap_cons, List.append_assoc, List.append_assoc, later]

end Pattern

end TreeQuery
