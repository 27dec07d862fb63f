import TreeQuery.Datum.Walk
import TreeQuery.Pattern.Basic

/-! Patterns as data, so that patterns can be queried with patterns. What a node carries besides
its subpatterns is part of its kind; the function of a host is not. -/

namespace TreeQuery

inductive PatternKind (D K : Type) where
  | wild
  | atom (value : D)
  | capture (name : String)
  | template (name : String)
  | node (kind : K)
  | contents
  | ofKind (kind : K)
  | and
  | or
  | mark
  | path
  | window
  | test
  | generate

namespace PatternKind

variable {D K : Type} [BEq D] [BEq K]

def beq : PatternKind D K → PatternKind D K → Bool
  | wild, wild | contents, contents | and, and | or, or | mark, mark => true
  | path, path | window, window | test, test | generate, generate => true
  | atom a, atom b => a == b
  | capture a, capture b | template a, template b => a == b
  | node k, node l | ofKind k, ofKind l => k == l
  | _, _ => false

instance : BEq (PatternKind D K) := ⟨beq⟩

end PatternKind

namespace Pattern

variable {D K H : Type}

def kind : Pattern D K H → PatternKind D K
  | wild => .wild
  | atom value => .atom value
  | capture name => .capture name
  | template name => .template name
  | node kind _ => .node kind
  | contents _ => .contents
  | ofKind kind => .ofKind kind
  | and _ _ => .and
  | or _ _ => .or
  | mark => .mark
  | path _ => .path
  | window _ => .window
  | test _ => .test
  | generate _ => .generate

def children : Pattern D K H → List (Pattern D K H)
  | and left right | or left right => [left, right]
  | node _ items | contents items | path items | window items => items
  | _ => []

mutual

def size : Pattern D K H → Nat
  | and left right | or left right => size left + size right + 1
  | node _ items | contents items | path items | window items => sizeAll items + 1
  | _ => 1

def sizeAll : List (Pattern D K H) → Nat
  | [] => 0
  | p :: ps => size p + sizeAll ps

end

theorem sizeAll_eq_total (ps : List (Pattern D K H)) : sizeAll ps = total size ps := by
  induction ps with
  | nil => rfl
  | cons p ps ih => simp [sizeAll, ih]

instance : TreeLike (Pattern D K H) (PatternKind D K) where
  kind := kind
  children := children
  size := size
  size_eq p := by cases p <;> simp [size, children, sizeAll_eq_total]

/-- The names a pattern captures, in preorder and with repetitions. What a generated pattern
captures does not show. -/
def captures (p : Pattern D K H) : List String :=
  (preorder p).filterMap fun
    | capture name => some name
    | _ => none

end Pattern

end TreeQuery
