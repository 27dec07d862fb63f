import Mathlib.Data.List.Forall2
import TreeQuery.Find
import TreeQuery.Proofs.Env.Maps
import TreeQuery.Tree

/-! The views of an environment agree on the earliest binding of each name. -/

namespace TreeQuery

variable {D K H : Type}

namespace Env

section Tokens

variable {T : Type} {text : T → String}

theorem names_ofTokens (pairs : List (T × D)) :
    (ofTokens text pairs).names = pairs.map fun pair => text pair.1 := by
  rw [names, ofTokens, List.map_map]
  rfl

theorem get?_ofTokens_eq_some_iff {pairs : List (T × D)} {name : String} {datum : D} :
    (ofTokens text pairs).get? name = some datum ↔ ∃ before token after,
      pairs = before ++ (token, datum) :: after ∧ text token = name ∧
        ∀ pair ∈ before, text pair.1 ≠ name := by
  rw [get?_eq_some_iff]
  constructor
  · rintro ⟨before, after, split, unbound⟩
    rcases List.map_eq_append_iff.mp split with ⟨first, rest, rfl, rfl, split'⟩
    rcases List.map_eq_cons_iff.mp split' with ⟨⟨token, d⟩, last, rfl, same, rfl⟩
    cases same
    exact ⟨first, token, last, rfl, rfl, fun pair member => unbound _ (List.mem_map_of_mem member)⟩
  · rintro ⟨before, token, after, rfl, rfl, unbound⟩
    exact ⟨_, _, List.map_append, List.forall_mem_map.mpr unbound⟩

theorem get?_ofTokens [BEq T] (interned : ∀ a b : T, (a == b) = (text a == text b))
    (pairs : List (T × D)) (token : T) :
    (ofTokens text pairs).get? (text token) = findToken? pairs token := by
  have same : ((fun binding : String × D => binding.1 == text token) ∘ fun pair : T × D =>
      (text pair.1, pair.2)) = fun pair => pair.1 == token :=
    funext fun pair => (interned pair.1 token).symm
  rw [get?_eq_find?, ofTokens, List.find?_map, same, findToken?, Option.map_map]
  rfl

end Tokens

theorem mem_keys_toMap {env : Env D} {name : String} :
    name ∈ env.toMap.keys ↔ name ∈ env.names := by
  rw [Std.TreeMap.mem_keys, Std.TreeMap.mem_iff_isSome_getElem?, env.isMap_toMap, isSome_get?]

theorem IsMap.equiv {env : Env D} {map map' : Std.TreeMap String D} (one : env.IsMap map)
    (other : env.IsMap map') : map.Equiv map' :=
  .of_forall_constGet?_eq fun name => (one name).trans (other name).symm

theorem toUniqueMap_eq_ok_iff {env : Env D} :
    (∃ map, env.toUniqueMap = .ok map) ↔ env.names.Nodup := by
  constructor
  · rintro ⟨map, made⟩
    rcases env.toUniqueMap_cases with ⟨nodup, -⟩ | ⟨i, name, first, failed⟩
    · exact nodup
    · cases made.symm.trans failed
  · exact exists_toUniqueMap

theorem isMap_toUniqueMap {env : Env D} {map : Std.TreeMap String D}
    (made : env.toUniqueMap = .ok map) : env.IsMap map := by
  rcases env.toUniqueMap_cases with ⟨-, map', made', holds⟩ | ⟨i, name, first, failed⟩
  · cases made.symm.trans made'
    exact holds
  · cases made.symm.trans failed

theorem toUniqueMap_eq_error_iff {env : Env D} {error : MatchError} :
    env.toUniqueMap = .error error ↔
      ∃ i name, FirstRepeat env.names i name ∧ error = .duplicateCapture name := by
  rcases env.toUniqueMap_cases with ⟨nodup, map, made, -⟩ | ⟨i, name, first, failed⟩
  · constructor
    · intro failed
      cases made.symm.trans failed
    · rintro ⟨i, name, first, -⟩
      exact absurd nodup first.not_nodup
  · constructor
    · intro failed'
      cases failed.symm.trans failed'
      exact ⟨i, name, first, rfl⟩
    · rintro ⟨j, other, first', rfl⟩
      rw [failed, first.unique first']

end Env

theorem Results.forall₂_toMaps (results : Results (Env D)) :
    List.Forall₂ Env.IsMap results.items results.toMaps.items := by
  rw [toMaps, List.forall₂_map_right_iff, List.forall₂_same]
  exact fun env _ => env.isMap_toMap

/-- Look-ups by name and by token, the map and the unique map of an environment all give the datum of the
first pair with the name, and the maps of an enumeration give it for each of the solutions. Only the
unique map fails, with the first name that has occurred before, if there is one. -/
theorem views_agree [TreeLike D K] [BEq D] [BEq K] {T : Type} [BEq T] (text : T → String)
    (interned : ∀ a b : T, (a == b) = (text a == text b)) (pairs : List (T × D)) :
    let env : Env D := .ofTokens text pairs
    (∀ name datum, env.get? name = some datum ↔ ∃ before token after,
      pairs = before ++ (token, datum) :: after ∧ text token = name ∧
        ∀ pair ∈ before, text pair.1 ≠ name) ∧
    (∀ name, env.get? name = none ↔ ∀ pair ∈ pairs, text pair.1 ≠ name) ∧
    (∀ token, Env.findToken? pairs token = env.get? (text token)) ∧
    env.IsMap env.toMap ∧ env.toMap.keys.Nodup ∧ (∀ name, name ∈ env.toMap.keys ↔ name ∈ env.names) ∧
    ((∃ map, env.toUniqueMap = .ok map) ↔ env.names.Nodup) ∧
    (∀ map, env.toUniqueMap = .ok map → map.Equiv env.toMap) ∧
    (∀ error, env.toUniqueMap = .error error ↔
      ∃ i name, FirstRepeat env.names i name ∧ error = .duplicateCapture name) ∧
    ∀ (host : Host D K H) (datum : D) (pattern : Pattern D K H) fuel limit reply,
      (find datum pattern).take host fuel limit = some reply →
      List.Forall₂ Env.IsMap reply.answer.items reply.answer.toMaps.items ∧
        reply.answer.toMaps.ending = reply.answer.ending := by
  intro env
  have unbound (name : String) : env.get? name = none ↔ ∀ pair ∈ pairs, text pair.1 ≠ name := by
    have bound : (env.get? name).isSome ↔ name ∈ env.names := Env.isSome_get?
    rw [Env.names_ofTokens, List.mem_map] at bound
    rw [← Option.not_isSome_iff_eq_none, bound, not_exists]
    exact forall_congr' fun pair => not_and
  refine ⟨fun _ _ => Env.get?_ofTokens_eq_some_iff, unbound, ?_, env.isMap_toMap,
    Std.TreeMap.nodup_keys, fun _ => Env.mem_keys_toMap, Env.toUniqueMap_eq_ok_iff, ?_,
    fun _ => Env.toUniqueMap_eq_error_iff, ?_⟩
  · exact fun token => (Env.get?_ofTokens interned pairs token).symm
  · exact fun map made => (Env.isMap_toUniqueMap made).equiv env.isMap_toMap
  · exact fun host datum pattern fuel limit reply _ => ⟨reply.answer.forall₂_toMaps, rfl⟩

def tokenName (token : Bool) : String := if token then "a" else "b"

theorem views_agree_repeated :
    let pairs : List (Bool × Tree) := [(true, .int 1), (false, .int 2), (true, .int 3), (false, .int 4)]
    let env : Env Tree := .ofTokens tokenName pairs
    let host : Host Tree String Unit := ⟨fun _ _ => .ok true, fun _ _ => .ok .wild⟩
    let datum : Tree := .list [.int 1, .int 2]
    let pattern : Pattern Tree String Unit := .contents [.capture "x", .capture "x"]
    (∀ a b : Bool, (a == b) = (tokenName a == tokenName b)) ∧
      env.get? "b" = some (.int 2) ∧ Env.findToken? pairs false = env.get? "b" ∧
      env.IsMap env.toMap ∧ env.toUniqueMap = .error (.duplicateCapture "a") ∧
      ∃ reply, (find datum pattern).take host 20 2 = some reply ∧
        reply.answer.items = [⟨[("x", .int 1), ("x", .int 2)]⟩] ∧
        List.Forall₂ Env.IsMap reply.answer.items reply.answer.toMaps.items := by
  intro pairs env host datum pattern
  have interned : ∀ a b : Bool, (a == b) = (tokenName a == tokenName b) := by decide
  have distinct : ["a", "b"].Nodup := by decide
  have repeated : FirstRepeat env.names 2 "a" :=
    (FirstRepeat.of_nodup distinct (by decide)).append ["b"]
  rcases views_agree (D := Tree) (K := String) (H := Unit) tokenName interned pairs with
    ⟨-, -, tokens, map, -, -, -, -, fails, maps⟩
  refine ⟨interned, rfl, tokens false, map, (fails _).mpr ⟨2, "a", repeated, rfl⟩, _, rfl, rfl, ?_⟩
  exact (maps host datum pattern 20 2 _ rfl).1

end TreeQuery
