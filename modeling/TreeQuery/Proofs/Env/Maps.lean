import Mathlib.Data.List.Induction
import Mathlib.Data.List.Nodup
import TreeQuery.Env

/-! Environments as maps. Both maps of an environment are made binding by binding, and what they hold
after a binding is said in terms of what they held before it. -/

namespace TreeQuery

/-- The name at an index is the first one in the list that stands there already before. -/
structure FirstRepeat (names : List String) (i : Nat) (name : String) : Prop where
  here : names[i]? = some name
  repeated : name ∈ names.take i
  least (j : Nat) (earlier : j < i) (other : String) (there : names[j]? = some other) :
    other ∉ names.take j

namespace FirstRepeat

variable {names : List String} {i : Nat} {name : String}

theorem lt (first : FirstRepeat names i name) : i < names.length :=
  (List.getElem?_eq_some_iff.mp first.here).1

theorem append (first : FirstRepeat names i name) (more : List String) :
    FirstRepeat (names ++ more) i name := by
  have same (j : Nat) (within : j ≤ i) : (names ++ more).take j = names.take j :=
    List.take_append_of_le_length (Nat.le_trans within (Nat.le_of_lt first.lt))
  constructor
  · rw [List.getElem?_append_left first.lt]
    exact first.here
  · rw [same i (Nat.le_refl i)]
    exact first.repeated
  · intro j earlier other there
    rw [List.getElem?_append_left (Nat.lt_trans earlier first.lt)] at there
    rw [same j (Nat.le_of_lt earlier)]
    exact first.least j earlier other there

theorem not_mem_take_of_nodup (nodup : names.Nodup) {j : Nat} {other : String}
    (there : names[j]? = some other) : other ∉ names.take j := by
  intro repeated
  rcases List.mem_take_iff_getElem.mp repeated with ⟨k, within, same⟩
  rcases List.getElem?_eq_some_iff.mp there with ⟨bound, here⟩
  have equal : k = j := (List.Nodup.getElem_inj_iff nodup).mp (same.trans here.symm)
  omega

theorem of_nodup (nodup : names.Nodup) (known : name ∈ names) :
    FirstRepeat (names ++ [name]) names.length name := by
  constructor
  · exact List.getElem?_concat_length
  · rw [List.take_left]
    exact known
  · intro j earlier other there
    rw [List.getElem?_append_left earlier] at there
    rw [List.take_append_of_le_length (Nat.le_of_lt earlier)]
    exact not_mem_take_of_nodup nodup there

theorem not_nodup (first : FirstRepeat names i name) : ¬ names.Nodup :=
  fun nodup => not_mem_take_of_nodup nodup first.here first.repeated

theorem unique {j : Nat} {other : String} (first : FirstRepeat names i name)
    (first' : FirstRepeat names j other) : name = other := by
  have equal : i = j := by
    rcases Nat.lt_trichotomy i j with before | equal | behind
    · exact absurd first.repeated (first'.least i before name first.here)
    · exact equal
    · exact absurd first'.repeated (first.least j behind other first'.here)
  exact Option.some.inj (first.here.symm.trans (equal ▸ first'.here))

end FirstRepeat

namespace Env

variable {D : Type}

@[elab_as_elim]
theorem induction_bind {motive : Env D → Prop} (empty : motive .empty)
    (bind : ∀ env name datum, motive env → motive (env.bind name datum)) (env : Env D) :
    motive env := by
  rcases env with ⟨bindings⟩
  induction bindings using List.reverseRecOn with
  | nil => exact empty
  | append_singleton bindings binding ih => exact bind ⟨bindings⟩ binding.1 binding.2 ih

theorem toMap_bind (env : Env D) (name : String) (datum : D) :
    (env.bind name datum).toMap = env.toMap.insertIfNew name datum := by
  rw [toMap, bind, List.foldl_append]
  rfl

theorem toUniqueMap_bind (env : Env D) (name : String) (datum : D) :
    (env.bind name datum).toUniqueMap = env.toUniqueMap.bind fun map =>
      if map.contains name then .error (.duplicateCapture name) else .ok (map.insert name datum) := by
  rw [toUniqueMap, bind, List.foldlM_append]
  refine congrArg (Except.bind env.toUniqueMap) (funext fun map => ?_)
  exact bind_pure _

def IsMap (env : Env D) (map : Std.TreeMap String D) : Prop :=
  ∀ name : String, map[name]? = env.get? name

theorem get?_eq_some_iff {env : Env D} {name : String} {datum : D} :
    env.get? name = some datum ↔ ∃ before after,
      env.bindings = before ++ (name, datum) :: after ∧ ∀ binding ∈ before, binding.1 ≠ name := by
  simp only [get?, List.lookup_eq_some_iff, bne_iff_ne, ne_comm]

theorem isSome_get? {env : Env D} {name : String} : (env.get? name).isSome ↔ name ∈ env.names := by
  rw [get?, List.lookup_isSome_iff, names, List.mem_map]
  constructor
  · rintro ⟨binding, member, same⟩
    exact ⟨binding, member, (eq_of_beq same).symm⟩
  · rintro ⟨binding, member, rfl⟩
    exact ⟨binding, member, beq_self_eq_true _⟩

theorem isMap_toMap (env : Env D) : env.IsMap env.toMap := by
  induction env using induction_bind with
  | empty => exact fun _ => Std.TreeMap.getElem?_emptyc
  | bind env bound datum ih =>
      intro name
      rw [toMap_bind, Std.TreeMap.getElem?_insertIfNew, get?_bind]
      by_cases same : bound = name
      · subst same
        simp only [Std.TreeMap.mem_iff_isSome_getElem?, ih bound]
        cases env.get? bound <;> simp
      · have different : (name == bound) = false := beq_false_of_ne (Ne.symm same)
        simp [same, different, ih name]

/-- Either no name is bound twice, and the map holds all bindings, or the first name that is bound
again is the error. -/
theorem toUniqueMap_cases (env : Env D) :
    (env.names.Nodup ∧ ∃ map, env.toUniqueMap = .ok map ∧ env.IsMap map) ∨
      ∃ i name, FirstRepeat env.names i name ∧
        env.toUniqueMap = .error (.duplicateCapture name) := by
  induction env using induction_bind with
  | empty => exact .inl ⟨List.nodup_nil, ∅, rfl, fun _ => Std.TreeMap.getElem?_emptyc⟩
  | bind env name datum ih =>
      rw [names_bind, toUniqueMap_bind]
      rcases ih with ⟨nodup, map, made, holds⟩ | ⟨i, repeated, first, failed⟩
      · have known : map.contains name = true ↔ name ∈ env.names := by
          rw [← isSome_get?, ← holds, Std.TreeMap.isSome_getElem?_eq_contains]
        rw [made, Except.bind]
        by_cases bound : name ∈ env.names
        · rw [if_pos (known.mpr bound)]
          exact .inr ⟨_, name, .of_nodup nodup bound, rfl⟩
        · rw [if_neg (mt known.mp bound)]
          refine .inl ⟨?_, _, rfl, fun other => ?_⟩
          · rw [← List.concat_eq_append, List.nodup_concat]
            exact ⟨bound, nodup⟩
          · rw [Std.TreeMap.getElem?_insert, get?_bind, holds]
            by_cases same : name = other
            · subst same
              have unknown : env.get? name = none := by
                rwa [← Option.not_isSome_iff_eq_none, isSome_get?]
              simp [unknown]
            · simp [same, Ne.symm same]
      · rw [failed]
        exact .inr ⟨i, repeated, first.append [name], rfl⟩

theorem exists_toUniqueMap {env : Env D} (nodup : env.names.Nodup) :
    ∃ map, env.toUniqueMap = .ok map := by
  rcases env.toUniqueMap_cases with ⟨-, map, made, -⟩ | ⟨i, name, first, -⟩
  · exact ⟨map, made⟩
  · exact absurd nodup first.not_nodup

end TreeQuery.Env
