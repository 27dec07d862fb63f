import TreeQuery.Pattern.Basic

/-! Structural equality of patterns. A host function equals only itself, by its handle. -/

namespace TreeQuery.Pattern

variable {D K H : Type} [BEq D] [BEq K] [BEq H]

mutual

def beq : Pattern D K H → Pattern D K H → Bool
  | wild, wild | mark, mark => true
  | atom a, atom b => a == b
  | capture a, capture b | template a, template b => a == b
  | node k ps, node l qs => k == l && beqAll ps qs
  | contents ps, contents qs | path ps, path qs | window ps, window qs => beqAll ps qs
  | ofKind k, ofKind l => k == l
  | and p q, and r s | or p q, or r s => beq p r && beq q s
  | test f, test g | generate f, generate g => f == g
  | _, _ => false

def beqAll : List (Pattern D K H) → List (Pattern D K H) → Bool
  | [], [] => true
  | p :: ps, q :: qs => beq p q && beqAll ps qs
  | _, _ => false

end

instance : BEq (Pattern D K H) := ⟨beq⟩

end TreeQuery.Pattern
