import TreeQuery.Datum.Basic
import TreeQuery.Text

/-! Trees of integers, symbols, lists and terms with a head. -/

namespace TreeQuery

inductive Tree where
  | int (value : Int)
  | sym (name : String)
  | list (items : List Tree)
  | term (head : String) (args : List Tree)
  deriving Inhabited

namespace Tree

def minInt : Int := Int64.minValue.toInt

def maxInt : Int := Int64.maxValue.toInt

def kind : Tree → String
  | int _ => "Leaf"
  | sym _ => "Sym"
  | list _ => "List"
  | term head _ => head

def children : Tree → List Tree
  | int _ | sym _ => []
  | list items => items
  | term _ args => args

mutual

def size : Tree → Nat
  | int _ | sym _ => 1
  | list items => sizeAll items + 1
  | term _ args => sizeAll args + 1

def sizeAll : List Tree → Nat
  | [] => 0
  | tree :: trees => size tree + sizeAll trees

end

theorem sizeAll_eq_total (trees : List Tree) : sizeAll trees = total size trees := by
  induction trees with
  | nil => rfl
  | cons tree trees ih => simp [sizeAll, ih]

instance : TreeLike Tree String where
  kind := kind
  children := children
  size := size
  size_eq tree := by cases tree <;> simp [size, children, sizeAll_eq_total]

mutual

def beq : Tree → Tree → Bool
  | int a, int b => a == b
  | sym a, sym b => a == b
  | list as, list bs => beqAll as bs
  | term f as, term g bs => f == g && beqAll as bs
  | _, _ => false

def beqAll : List Tree → List Tree → Bool
  | [], [] => true
  | a :: as, b :: bs => beq a b && beqAll as bs
  | _, _ => false

end

instance : BEq Tree := ⟨beq⟩

mutual

theorem beq_comm : ∀ a b : Tree, (a == b) = (b == a)
  | int a, int b => BEq.comm (a := a)
  | sym a, sym b => BEq.comm (a := a)
  | list as, list bs => beqAll_comm as bs
  | term f as, term g bs => by
      change (f == g && beqAll as bs) = (g == f && beqAll bs as)
      rw [BEq.comm (a := f), beqAll_comm as bs]
  | int _, sym _ | int _, list _ | int _, term _ _ | sym _, int _ | sym _, list _ | sym _, term _ _
  | list _, int _ | list _, sym _ | list _, term _ _ | term _ _, int _ | term _ _, sym _
  | term _ _, list _ => rfl

theorem beqAll_comm : ∀ as bs : List Tree, beqAll as bs = beqAll bs as
  | [], [] | [], _ :: _ | _ :: _, [] => rfl
  | a :: as, b :: bs => by
      change (a == b && beqAll as bs) = (b == a && beqAll bs as)
      rw [beq_comm a b, beqAll_comm as bs]

end

mutual

def text : Tree → String
  | int value => "Leaf(" ++ toString value ++ ")"
  | sym name => "Sym(" ++ name ++ ")"
  | list items => "[" ++ ", ".intercalate (textAll items) ++ "]"
  | term head args => head ++ "(" ++ ", ".intercalate (textAll args) ++ ")"

def textAll : List Tree → List String
  | [] => []
  | tree :: trees => text tree :: textAll trees

end

instance : HasText Tree := ⟨text⟩

def nest : Nat → Tree → Tree
  | 0, tree => tree
  | depth + 1, tree => list [nest depth tree]

end Tree

end TreeQuery
