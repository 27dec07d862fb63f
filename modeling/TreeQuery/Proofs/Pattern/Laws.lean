import TreeQuery.Proofs.Pattern.Context
import TreeQuery.Tree

/-! The laws of the pattern algebra. Each of them holds inside any pattern. -/

namespace TreeQuery

variable {D K H : Type}

namespace Pattern

/-- The patterns, in this order, are the leaves of a tree of applications of `op`. -/
inductive Joined (op : Pattern D K H → Pattern D K H → Pattern D K H) :
    List (Pattern D K H) → Pattern D K H → Prop where
  | leaf (p : Pattern D K H) : Joined op [p] p
  | join {ps qs : List (Pattern D K H)} {a b : Pattern D K H} (left : Joined op ps a)
      (right : Joined op qs b) : Joined op (ps ++ qs) (op a b)

theorem joined_all (p : Pattern D K H) (ps : List (Pattern D K H)) :
    Joined .and (p :: ps) (all (p :: ps)) := by
  induction ps generalizing p with
  | nil => exact .leaf p
  | cons q ps ih => exact .join (.leaf p) (ih q)

theorem joined_any (never : H) (p : Pattern D K H) (ps : List (Pattern D K H)) :
    Joined .or (p :: ps) (any never (p :: ps)) := by
  induction ps generalizing p with
  | nil => exact .leaf p
  | cons q ps ih => exact .join (.leaf p) (ih q)

variable [TreeLike D K] [BEq D] [BEq K] {host : Host D K H} {visible : Call D H → Bool}

section Trees

variable {config : MatchConfig}
variable {expand : Pattern D K H → D → Branch D → Course (Call D H) (Branch D)}

def togetherBy (host : Host D K H) (config : MatchConfig)
    (expand : Pattern D K H → D → Branch D → Course (Call D H) (Branch D)) (datum : D) :
    List (Pattern D K H) → Branch D → Course (Call D H) (Branch D)
  | [], branch => .pure branch
  | p :: ps, branch =>
    (courseBy host config expand p datum branch).bind (togetherBy host config expand datum ps)

theorem togetherBy_append (datum : D) (ps qs : List (Pattern D K H)) (branch : Branch D) :
    togetherBy host config expand datum (ps ++ qs) branch =
      (togetherBy host config expand datum ps branch).bind
        (togetherBy host config expand datum qs) := by
  induction ps generalizing branch with
  | nil => exact (Course.pure_bind _ _).symm
  | cons p ps ih =>
      have later : togetherBy host config expand datum (ps ++ qs) = fun between =>
          (togetherBy host config expand datum ps between).bind
            (togetherBy host config expand datum qs) := funext ih
      rw [List.cons_append, togetherBy, togetherBy, later, Course.bind_assoc]

theorem Joined.course_and {ps : List (Pattern D K H)} {p : Pattern D K H} (joined : Joined .and ps p)
    (datum : D) (branch : Branch D) :
    courseBy host config expand p datum branch =
      togetherBy host config expand datum ps branch := by
  induction joined generalizing branch with
  | leaf p =>
      calc courseBy host config expand p datum branch
          = (courseBy host config expand p datum branch).bind Course.pure :=
            (Course.bind_pure _).symm
        _ = togetherBy host config expand datum [p] branch := rfl
  | @join ps qs a b left right ihl ihr =>
      have later : courseBy host config expand b datum = togetherBy host config expand datum qs :=
        funext ihr
      rw [courseBy, ihl, later, togetherBy_append]

theorem Joined.course_or {ps : List (Pattern D K H)} {p : Pattern D K H} (joined : Joined .or ps p)
    (datum : D) (branch : Branch D) :
    courseBy host config expand p datum branch =
      .concat (ps.map fun p => courseBy host config expand p datum branch) := by
  induction joined with
  | leaf p => exact (Course.append_done _).symm
  | join left right ihl ihr =>
      rw [courseBy, ihl, ihr, List.map_append, Course.concat_append]

end Trees

namespace Equiv

theorem of_courseBy {a b : Pattern D K H} (same : ∀ config expand datum branch,
    courseBy host config expand a datum branch = courseBy host config expand b datum branch) :
    Equiv host visible a b :=
  of_eq fun config depth datum branch => by
    rw [sight, sight, course, same]

theorem wild_and (p : Pattern D K H) : Equiv host visible (.and .wild p) p :=
  of_courseBy fun config expand datum branch => by
    simp only [courseBy]
    exact Course.pure_bind branch (courseBy host config expand p datum)

theorem and_wild (p : Pattern D K H) : Equiv host visible (.and p .wild) p :=
  of_courseBy fun config expand datum branch => by
    have later : courseBy host config expand .wild datum = Course.pure := by
      funext between
      rw [courseBy]
    rw [courseBy, later, Course.bind_pure]

theorem generate {handle : H} {p : Pattern D K H}
    (made : ∀ env, host.generate handle env = .ok p)
    (hidden : ∀ env, visible (.generate handle env) = false) :
    Equiv host visible (.generate handle) p := by
  -- The generated pattern is followed one level less than the generator.
  have shown (config : MatchConfig) (depth : Nat) (datum : D) (branch : Branch D) :
      (Pattern.generate handle).sight host visible config (depth + 1) datum branch =
        p.sight host visible config depth datum branch := by
    simp only [sight, course, courseBy, made, Course.filter, hidden, Bool.false_eq_true, if_false]
  constructor
  · refine ⟨0, fun config depth datum branch => ?_⟩
    cases depth with
    | zero => exact .pending _
    | succ depth =>
        rw [shown, Nat.zero_add]
        exact (course_below_succ depth p datum branch).filter visible
  · refine ⟨1, fun config depth datum branch => ?_⟩
    rw [Nat.add_comm, shown]
    exact .refl _

theorem or_and (a b c : Pattern D K H) :
    Equiv host visible (.and (.or a b) c) (.or (.and a c) (.and b c)) :=
  of_courseBy fun config expand datum branch => by
    simp only [courseBy]
    exact Course.append_bind _ _ _

theorem node (kind : K) (items : List (Pattern D K H)) :
    Equiv host visible (.node kind items) (.and (.ofKind kind) (.contents items)) :=
  of_courseBy fun config expand datum branch => by
    cases same : TreeLike.kind datum == kind with
    | false =>
        simp only [courseBy, same, Bool.false_and]
        rfl
    | true =>
        calc courseBy host config expand (.node kind items) datum branch
            = courseBy host config expand (.contents items) datum branch := by
              simp only [courseBy, same, Bool.true_and]
          _ = (Course.pure branch).bind (courseBy host config expand (.contents items) datum) :=
              (Course.pure_bind _ _).symm
          _ = courseBy host config expand (.and (.ofKind kind) (.contents items)) datum branch := by
              simp only [courseBy, same, guardCourse, if_true]

theorem path_nil : Equiv host visible (.path []) (.wild : Pattern D K H) :=
  of_courseBy fun config expand datum branch => by simp only [courseBy, followBy]

section Never

variable {never : H} (fails : ∀ datum, host.test never datum = .ok false)

include fails

theorem courseBy_never (config : MatchConfig)
    (expand : Pattern D K H → D → Branch D → Course (Call D H) (Branch D)) (datum : D)
    (branch : Branch D) :
    courseBy host config expand (.test never) datum branch = .event (.test never datum) .done := by
  rw [courseBy, fails]
  rfl

theorem never_and (p : Pattern D K H) : Equiv host visible (.and (.test never) p) (.test never) :=
  of_courseBy fun config expand datum branch => by
    rw [courseBy, courseBy_never fails]
    rfl

theorem never_or (hidden : ∀ datum, visible (.test never datum) = false) (p : Pattern D K H) :
    Equiv host visible (.or (.test never) p) p :=
  of_eq fun config depth datum branch => by
    simp only [sight, course, courseBy, fails, guardCourse, Course.filter_append, Course.filter,
      hidden, Bool.false_eq_true, if_false, Course.done_append]

theorem or_never (hidden : ∀ datum, visible (.test never datum) = false) (p : Pattern D K H) :
    Equiv host visible (.or p (.test never)) p :=
  of_eq fun config depth datum branch => by
    simp only [sight, course, courseBy, fails, guardCourse, Course.filter_append, Course.filter,
      hidden, Bool.false_eq_true, if_false, Course.append_done]

end Never

end Equiv

end Pattern

open Pattern in
/-- The laws of the algebra, in any pattern and for any choice of visible calls: conjunctions and
alternatives are associative, a wildcard is neutral in a conjunction, and so is the generation of a
pattern that does not depend on the bindings, if the calls of the generator are not visible. A
conjunction distributes over alternatives on its left. A test that always fails makes a conjunction
fail on its left, and it is neutral among alternatives, if its calls are not visible. A node is a
kind and contents, and a path without steps is a wildcard. -/
theorem pattern_laws [TreeLike D K] [BEq D] [BEq K] (host : Host D K H) :
    (∀ visible ps a b, Joined .and ps a → Joined .and ps b → Interchangeable host visible a b) ∧
    (∀ visible ps a b, Joined .or ps a → Joined .or ps b → Interchangeable host visible a b) ∧
    (∀ never p ps, Joined .and (p :: ps) (all (p :: ps) : Pattern D K H) ∧
      Joined .or (p :: ps) (any never (p :: ps) : Pattern D K H)) ∧
    (∀ visible p, Interchangeable host visible (.and .wild p) p ∧
      Interchangeable host visible (.and p .wild) p ∧
      Interchangeable host visible (.and .wild p) (.and p .wild)) ∧
    (∀ visible handle p, (∀ env, host.generate handle env = .ok p) →
      (∀ env, visible (.generate handle env) = false) →
      ∀ q ∈ [p, .and .wild p, .and p .wild], Interchangeable host visible (.generate handle) q) ∧
    (∀ visible a b c,
      Interchangeable host visible (.and (.or a b) c) (.or (.and a c) (.and b c))) ∧
    (∀ visible never p, (∀ datum, host.test never datum = .ok false) →
      Interchangeable host visible (.and (.test never) p) (.test never) ∧
      ((∀ datum, visible (.test never datum) = false) →
        Interchangeable host visible (.or (.test never) p) p ∧
        Interchangeable host visible (.or p (.test never)) p)) ∧
    (∀ visible kind items,
      Interchangeable host visible (.node kind items) (.and (.ofKind kind) (.contents items))) ∧
    ∀ visible, Interchangeable host visible (.path []) (.wild : Pattern D K H) := by
  refine ⟨?_, ?_, ?_, ?_, ?_, ?_, ?_, ?_, ?_⟩
  · intro visible ps a b one other
    refine Equiv.interchangeable (.of_courseBy fun config expand datum branch => ?_)
    rw [one.course_and, other.course_and]
  · intro visible ps a b one other
    refine Equiv.interchangeable (.of_courseBy fun config expand datum branch => ?_)
    rw [one.course_or, other.course_or]
  · intro never p ps
    exact ⟨joined_all p ps, joined_any never p ps⟩
  · intro visible p
    have wild : Equiv host visible (.and .wild p) p := .wild_and p
    have wild' : Equiv host visible (.and p .wild) p := .and_wild p
    exact ⟨wild.interchangeable, wild'.interchangeable, (wild.trans wild'.symm).interchangeable⟩
  · intro visible handle p made hidden q member
    have generated : Equiv host visible (.generate handle) p := .generate made hidden
    simp only [List.mem_cons, List.not_mem_nil, or_false] at member
    rcases member with rfl | rfl | rfl
    · exact generated.interchangeable
    · exact (generated.trans (Equiv.wild_and p).symm).interchangeable
    · exact (generated.trans (Equiv.and_wild p).symm).interchangeable
  · intro visible a b c
    exact (Equiv.or_and a b c).interchangeable
  · intro visible never p fails
    refine ⟨(Equiv.never_and fails p).interchangeable, fun hidden => ?_⟩
    exact ⟨(Equiv.never_or fails hidden p).interchangeable,
      (Equiv.or_never fails hidden p).interchangeable⟩
  · intro visible kind items
    exact (Equiv.node kind items).interchangeable
  · intro visible
    exact Equiv.path_nil.interchangeable

theorem pattern_laws_generated :
    let choice : Pattern Tree String Bool := .or (.test false) (.capture "x")
    let host : Host Tree String Bool := ⟨fun handle _ => .ok handle, fun _ _ => .ok choice⟩
    let visible : Call Tree Bool → Bool := fun call =>
      match call with
      | .test handle _ => handle
      | .generate _ _ => false
    Pattern.Interchangeable host visible (.generate true) choice ∧
      Pattern.Interchangeable host visible choice (.capture "x") ∧
      ∃ replies replies' : List (Reply Tree String Bool (Except MatchError (Option (Env Tree)))),
        (findWith (.list [.int 1]) (.contents [choice]) {}).advances host 20 2 = some replies ∧
        (findWith (.list [.int 1]) (.contents [.capture "x"]) {}).advances host 20 2 = some replies' ∧
        replies.map Reply.answer = [.ok (some ⟨[("x", .int 1)]⟩), .ok none] ∧
        (replies.flatMap Reply.calls).filter visible = replies'.flatMap Reply.calls := by
  intro choice host visible
  have laws := pattern_laws host
  have generated := laws.2.2.2.2.1 visible true choice (fun _ => rfl) (fun _ => rfl)
  have never := (laws.2.2.2.2.2.2.1 visible false (.capture "x") fun _ => rfl).2 fun _ => rfl
  refine ⟨generated choice List.mem_cons_self, never.1, ?_⟩
  have agree := never.1 (.contents [.hole]) (.list [.int 1]) {}
  refine ⟨_, _, rfl, rfl, rfl, ?_⟩
  exact (agree.replies 2 20 20 _ _ rfl rfl).1

end TreeQuery
