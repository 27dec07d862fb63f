/-! Patterns: a small closed algebra of queries over tree-shaped data. -/

namespace TreeQuery

/-- A pattern over data `D` with kinds `K`. Functions of the host appear as handles `H`, which the
host gives a meaning when the pattern is matched.

`node` asks for a kind and matches the children one to one, `contents` ignores the kind, `ofKind`
ignores the children. `mark` selects the datum on which the next step of the enclosing `path` goes
on. `window` matches its items against each run of neighbouring children. `generate` asks the host
for a pattern, given what is bound so far. -/
inductive Pattern (D K H : Type) where
  | wild
  | atom (value : D)
  | capture (name : String)
  | template (name : String)
  | node (kind : K) (items : List (Pattern D K H))
  | contents (items : List (Pattern D K H))
  | ofKind (kind : K)
  | and (left right : Pattern D K H)
  | or (left right : Pattern D K H)
  | mark
  | path (steps : List (Pattern D K H))
  | window (items : List (Pattern D K H))
  | test (handle : H)
  | generate (handle : H)

namespace Pattern

variable {D K H : Type}

instance : Inhabited (Pattern D K H) := ⟨wild⟩

def all : List (Pattern D K H) → Pattern D K H
  | [] => wild
  | [p] => p
  | p :: ps => and p (all ps)

/-- Each of the patterns in turn, nested to the right; of none, the test `never`. -/
def any (never : H) : List (Pattern D K H) → Pattern D K H
  | [] => test never
  | [p] => p
  | p :: ps => or p (any never ps)

end Pattern

end TreeQuery
