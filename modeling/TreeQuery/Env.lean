import Std.Data.TreeMap
import TreeQuery.Error

/-! Environments: the names a branch of the search has bound, in the order of binding. -/

namespace TreeQuery

/-- A name may be bound again; look-ups see its earliest binding. -/
structure Env (D : Type) where
  bindings : List (String × D) := []

namespace Env

variable {D : Type}

def empty : Env D := {}

def bind (env : Env D) (name : String) (datum : D) : Env D :=
  ⟨env.bindings ++ [(name, datum)]⟩

def get? (env : Env D) (name : String) : Option D := env.bindings.lookup name

section Tokens

variable {T : Type}

def ofTokens (text : T → String) (pairs : List (T × D)) : Env D :=
  ⟨pairs.map fun pair => (text pair.1, pair.2)⟩

/-- Looks a name up by its token. Tokens are compared, and not their texts. -/
def findToken? [BEq T] (pairs : List (T × D)) (token : T) : Option D :=
  (pairs.find? fun pair => pair.1 == token).map Prod.snd

end Tokens

def names (env : Env D) : List String := env.bindings.map Prod.fst

def size (env : Env D) : Nat := env.bindings.length

def isEmpty (env : Env D) : Bool := env.bindings.isEmpty

theorem get?_eq_find? (env : Env D) (name : String) :
    env.get? name = (env.bindings.find? fun binding => binding.1 == name).map Prod.snd := by
  rcases env with ⟨bindings⟩
  simp only [get?]
  induction bindings with
  | nil => rfl
  | cons binding bindings ih =>
      rw [List.find?_cons, List.lookup_cons, BEq.comm]
      cases binding.1 == name with
      | true => rfl
      | false => exact ih

theorem get?_bind (env : Env D) (name x : String) (datum : D) :
    (env.bind name datum).get? x = (env.get? x).or (if x == name then some datum else none) := by
  simp only [get?, bind, List.lookup_append]
  congr 1
  cases same : x == name <;> simp [List.lookup_cons, same]

theorem names_bind (env : Env D) (name : String) (datum : D) :
    (env.bind name datum).names = env.names ++ [name] := by
  simp [names, bind]

/-- Of several bindings of a name the earliest is kept. -/
def toMap (env : Env D) : Std.TreeMap String D :=
  env.bindings.foldl (fun map binding => map.insertIfNew binding.1 binding.2) ∅

/-- Fails at the first binding whose name is already bound. -/
def toUniqueMap (env : Env D) : Except MatchError (Std.TreeMap String D) :=
  env.bindings.foldlM (fun map binding =>
    if map.contains binding.1 then .error (.duplicateCapture binding.1)
    else .ok (map.insert binding.1 binding.2)) ∅

instance [BEq D] : BEq (Env D) := ⟨fun a b => a.bindings == b.bindings⟩

instance [HasText D] : HasText (Env D) where
  text env :=
    let item := fun (binding : String × D) =>
      "$" ++ binding.1 ++ " = " ++ HasText.text binding.2
    "\x7b" ++ ", ".intercalate (env.bindings.map item) ++ "\x7d"

end Env

end TreeQuery
