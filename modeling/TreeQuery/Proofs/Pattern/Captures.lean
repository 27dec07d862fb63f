import TreeQuery.Proofs.Course.Items
import TreeQuery.Proofs.Datum.Nodes
import TreeQuery.Proofs.Datum.Windows
import TreeQuery.Proofs.Enumerator.Adequacy
import TreeQuery.Proofs.Env.Maps
import TreeQuery.Proofs.Pattern.Founded
import TreeQuery.Tree

/-! What a pattern can bind. The captures of a pattern, read off without matching it, are a bound on
the names that its solutions bind, and on their order. -/

namespace TreeQuery

open TreeLike (nodes mem_nodes_self mem_nodes_child mem_nodes_trans)

variable {D K H : Type}

namespace Pattern

def ownCapture : Pattern D K H → List String
  | capture name => [name]
  | _ => []

structure Straight (p : Pattern D K H) : Prop where
  or (left right : Pattern D K H) : or left right ∉ nodes p
  path (steps : List (Pattern D K H)) : path steps ∉ nodes p

theorem Straight.child {p q : Pattern D K H} (straight : p.Straight) (member : q ∈ p.children) :
    q.Straight := by
  have below {r : Pattern D K H} (inner : r ∈ nodes q) : r ∈ nodes p :=
    mem_nodes_trans inner (mem_nodes_child member)
  exact ⟨fun left right inner => straight.or left right (below inner),
    fun steps inner => straight.path steps (below inner)⟩

theorem captures_eq_flatMap (p : Pattern D K H) : p.captures = (nodes p).flatMap ownCapture := by
  rw [captures, preorder_eq_nodes, List.filterMap_eq_flatMap_toList]
  apply List.flatMap_congr
  intro q _
  cases q <;> rfl

theorem captures_eq (p : Pattern D K H) :
    p.captures = p.ownCapture ++ p.children.flatMap captures := by
  rw [captures_eq_flatMap, TreeLike.nodes_eq, List.flatMap_cons, List.flatMap_assoc]
  congr 1
  exact List.flatMap_congr fun q _ => (captures_eq_flatMap q).symm

theorem captures_of_own {p : Pattern D K H} (own : p.ownCapture = []) :
    p.captures = p.children.flatMap captures := by
  rw [captures_eq, own, List.nil_append]

end Pattern

section Gains

variable [TreeLike D K]

/-- The later environment adds to the earlier one bindings of some of the names, in the order of the
names, to nodes of the datum. It binds all of the names if `all` holds. -/
def Env.Gains (datum : D) (names : List String) (all : Prop) (earlier later : Env D) : Prop :=
  ∃ added : Env D, later.bindings = earlier.bindings ++ added.bindings ∧
    added.names.Sublist names ∧ (all → added.names = names) ∧
    ∀ binding ∈ added.bindings, binding.2 ∈ nodes datum

namespace Env.Gains

variable {datum : D} {names more : List String} {all : Prop} {a b c : Env D}

theorem none (env : Env D) (nothing : all → names = []) : Gains datum names all env env :=
  ⟨.empty, (List.append_nil _).symm, List.nil_sublist names, fun full => (nothing full).symm,
    fun _ member => absurd member List.not_mem_nil⟩

theorem bind (env : Env D) (name : String) :
    Gains datum [name] all env (env.bind name datum) := by
  refine ⟨⟨[(name, datum)]⟩, rfl, .refl _, fun _ => rfl, ?_⟩
  intro binding member
  rw [List.mem_singleton.mp member]
  exact mem_nodes_self datum

theorem trans (first : Gains datum names all a b) (second : Gains datum more all b c) :
    Gains datum (names ++ more) all a c := by
  rcases first with ⟨added, whole, sub, full, inside⟩
  rcases second with ⟨added', whole', sub', full', inside'⟩
  have split : (⟨added.bindings ++ added'.bindings⟩ : Env D).names = added.names ++ added'.names :=
    List.map_append
  refine ⟨⟨added.bindings ++ added'.bindings⟩, ?_, ?_, ?_, ?_⟩
  · rw [whole', whole, List.append_assoc]
  · rw [split]
    exact sub.append sub'
  · intro holds
    rw [split, full holds, full' holds]
  · intro binding member
    rcases List.mem_append.mp member with here | there
    · exact inside binding here
    · exact inside' binding there

theorem within {root : D} (gains : Gains datum names all a b) (below : datum ∈ nodes root) :
    Gains root names all a b := by
  rcases gains with ⟨added, whole, sub, full, inside⟩
  exact ⟨added, whole, sub, full, fun binding member => mem_nodes_trans (inside binding member) below⟩

theorem widen {all' : Prop} (gains : Gains datum names all a b) (sub : names.Sublist more)
    (partly : ¬ all') : Gains datum more all' a b := by
  rcases gains with ⟨added, whole, sub', _, inside⟩
  exact ⟨added, whole, sub'.trans sub, fun full => absurd full partly, inside⟩

theorem imp {all' : Prop} (gains : Gains datum names all a b) (weaker : all' → all) :
    Gains datum names all' a b := by
  rcases gains with ⟨added, whole, sub, full, inside⟩
  exact ⟨added, whole, sub, fun holds => full (weaker holds), inside⟩

end Env.Gains

structure Branch.Gains (datum : D) (names : List String) (all : Prop) (before after : Branch D) :
    Prop where
  captures : before.captures.Gains datum names all after.captures
  marks : ∀ mark ∈ after.marks, mark ∈ before.marks ∨ mark ∈ nodes datum

namespace Branch.Gains

variable {datum : D} {names more : List String} {all : Prop} {a b c : Branch D}

theorem none (branch : Branch D) (nothing : all → names = []) :
    Gains datum names all branch branch :=
  ⟨.none _ nothing, fun _ => .inl⟩

theorem trans (first : Gains datum names all a b) (second : Gains datum more all b c) :
    Gains datum (names ++ more) all a c := by
  refine ⟨first.captures.trans second.captures, fun mark member => ?_⟩
  rcases second.marks mark member with old | new
  · exact first.marks mark old
  · exact .inr new

theorem within {root : D} (gains : Gains datum names all a b) (below : datum ∈ nodes root) :
    Gains root names all a b :=
  ⟨gains.captures.within below, fun mark member =>
    (gains.marks mark member).imp id fun inner => mem_nodes_trans inner below⟩

theorem widen {all' : Prop} (gains : Gains datum names all a b) (sub : names.Sublist more)
    (partly : ¬ all') : Gains datum more all' a b :=
  ⟨gains.captures.widen sub partly, gains.marks⟩

theorem imp {all' : Prop} (gains : Gains datum names all a b) (weaker : all' → all) :
    Gains datum names all' a b :=
  ⟨gains.captures.imp weaker, gains.marks⟩

end Branch.Gains

end Gains

namespace Pattern

theorem eq_of_mem_guardCourse {branch after : Branch D} {holds : Bool}
    (member : after ∈ (guardCourse branch holds : Course (Call D H) (Branch D))) : after = branch := by
  cases holds with
  | false => exact absurd member (Course.not_mem_done after)
  | true => exact Course.mem_pure.mp member

variable [TreeLike D K] [BEq D] [BEq K] {host : Host D K H} {config : MatchConfig}
  {expand : Pattern D K H → D → Branch D → Course (Call D H) (Branch D)}

def Gaining (host : Host D K H) (config : MatchConfig)
    (expand : Pattern D K H → D → Branch D → Course (Call D H) (Branch D)) (p : Pattern D K H) : Prop :=
  ∀ datum before, ∀ after ∈ courseBy host config expand p datum before,
    before.Gains datum p.captures p.Straight after

theorem gains_threadBy {root : D} {ps : List (Pattern D K H)} {data : List D}
    (each : ∀ p ∈ ps, p.Gaining host config expand) (inside : ∀ datum ∈ data, datum ∈ nodes root)
    (length : data.length = ps.length) {before after : Branch D}
    (member : after ∈ threadBy host config expand ps data before) :
    before.Gains root (ps.flatMap captures) (∀ p ∈ ps, p.Straight) after := by
  induction ps generalizing data before with
  | nil =>
      simp only [threadBy] at member
      rw [Course.mem_pure.mp member]
      exact .none before fun _ => rfl
  | cons p ps ih =>
      cases data with
      | nil => cases length
      | cons datum data =>
          simp only [threadBy] at member
          rcases Course.exists_of_mem_bind member with ⟨between, first, second⟩
          have own := (each p List.mem_cons_self datum before between first).within
            (inside datum List.mem_cons_self)
          have rest := ih (fun q present => each q (List.mem_cons_of_mem p present))
            (fun datum' present => inside datum' (List.mem_cons_of_mem datum present))
            (Nat.succ.inj length) second
          exact (own.imp fun straight => straight p List.mem_cons_self).trans
            (rest.imp fun straight q present => straight q (List.mem_cons_of_mem p present))

/-- The marks of a path are those from before it; of its captures, those of the later steps may be
missing. -/
theorem gains_followBy {ps : List (Pattern D K H)} (each : ∀ p ∈ ps, p.Gaining host config expand)
    {step : Nat} {datum : D} {before after : Branch D}
    (member : after ∈ followBy host config expand ps step datum before) :
    before.captures.Gains datum (ps.flatMap captures) False after.captures ∧
      after.marks = before.marks := by
  induction ps generalizing step datum before after with
  | nil =>
      simp only [followBy] at member
      rw [Course.mem_pure.mp member]
      exact ⟨.none _ False.elim, rfl⟩
  | cons p ps ih =>
      simp only [followBy] at member
      rcases Course.exists_of_mem_bind member with ⟨solved, first, leaves⟩
      have own := each p List.mem_cons_self datum _ solved first
      have captured : before.captures.Gains datum p.captures False solved.captures :=
        own.captures.imp False.elim
      unfold leaveStep at leaves
      split at leaves
      · split at leaves
        · exact absurd leaves (Course.not_mem_failed _ after)
        · rw [Course.mem_pure.mp leaves]
          exact ⟨captured.widen (List.sublist_append_left _ _) id, rfl⟩
      · rcases Course.exists_of_mem_concat leaves with ⟨mark, marked, second⟩
        have below : mark ∈ nodes datum :=
          (own.marks mark marked).resolve_left List.not_mem_nil
        rcases ih (fun q present => each q (List.mem_cons_of_mem p present)) second with
          ⟨rest, marks⟩
        exact ⟨captured.trans (rest.within below), marks⟩

theorem gaining_of_unchanged {p : Pattern D K H} (nothing : p.captures = [])
    (same : ∀ datum before, ∀ after ∈ courseBy host config expand p datum before, after = before) :
    p.Gaining host config expand := by
  intro datum before after member
  rw [same datum before after member]
  exact .none before fun _ => nothing

theorem gaining_wild : Gaining host config expand .wild := by
  refine gaining_of_unchanged (captures_of_own rfl) fun datum before after member => ?_
  simp only [courseBy] at member
  exact Course.mem_pure.mp member

theorem gaining_atom (value : D) : Gaining host config expand (.atom value) := by
  refine gaining_of_unchanged (captures_of_own rfl) fun datum before after member => ?_
  simp only [courseBy] at member
  exact eq_of_mem_guardCourse member

theorem gaining_ofKind (kind : K) : Gaining host config expand (.ofKind kind) := by
  refine gaining_of_unchanged (captures_of_own rfl) fun datum before after member => ?_
  simp only [courseBy] at member
  exact eq_of_mem_guardCourse member

theorem gaining_template (name : String) : Gaining host config expand (.template name) := by
  refine gaining_of_unchanged (captures_of_own rfl) fun datum before after member => ?_
  simp only [courseBy] at member
  split at member
  · exact eq_of_mem_guardCourse member
  · split at member
    · exact absurd member (Course.not_mem_failed _ after)
    · exact absurd member (Course.not_mem_done after)

theorem gaining_test (handle : H) : Gaining host config expand (.test handle) := by
  refine gaining_of_unchanged (captures_of_own rfl) fun datum before after member => ?_
  simp only [courseBy] at member
  rw [Course.mem_event] at member
  split at member
  · exact eq_of_mem_guardCourse member
  · exact absurd member (Course.not_mem_failed _ after)

theorem gaining_capture (name : String) : Gaining host config expand (.capture name) := by
  intro datum before after member
  simp only [courseBy] at member
  rw [Course.mem_pure.mp member, captures_eq]
  exact ⟨.bind before.captures name, fun _ => .inl⟩

theorem gaining_mark : Gaining host config expand .mark := by
  intro datum before after member
  simp only [courseBy] at member
  rw [Course.mem_pure.mp member]
  refine ⟨.none _ fun _ => captures_of_own rfl, fun mark marked => ?_⟩
  rcases List.mem_append.mp marked with old | new
  · exact .inl old
  · rw [List.mem_singleton.mp new]
    exact .inr (mem_nodes_self datum)

variable {items : List (Pattern D K H)} {left right : Pattern D K H}

theorem gaining_node (kind : K) (each : ∀ p ∈ items, p.Gaining host config expand) :
    Gaining host config expand (.node kind items) := by
  intro datum before after member
  simp only [courseBy] at member
  split at member
  · rename_i same
    simp only [Bool.and_eq_true, beq_iff_eq] at same
    rw [captures_of_own rfl]
    exact (gains_threadBy each (fun _ => mem_nodes_child) same.2 member).imp fun straight _ =>
      straight.child
  · exact absurd member (Course.not_mem_done after)

theorem gaining_contents (each : ∀ p ∈ items, p.Gaining host config expand) :
    Gaining host config expand (.contents items) := by
  intro datum before after member
  simp only [courseBy] at member
  split at member
  · rename_i same
    rw [captures_of_own rfl]
    exact (gains_threadBy each (fun _ => mem_nodes_child) (beq_iff_eq.mp same) member).imp
      fun straight _ => straight.child
  · exact absurd member (Course.not_mem_done after)

theorem gaining_window (each : ∀ p ∈ items, p.Gaining host config expand) :
    Gaining host config expand (.window items) := by
  intro datum before after member
  simp only [courseBy] at member
  rcases Course.exists_of_mem_concat member with ⟨run, window, threaded⟩
  rw [slices_eq_windows] at window
  have inside : ∀ d ∈ run, d ∈ nodes datum := fun d present =>
    mem_nodes_child (subset_of_mem_windows window present)
  rw [captures_of_own rfl]
  exact (gains_threadBy each inside (length_of_mem_windows window) threaded).imp fun straight _ =>
    straight.child

theorem gaining_path (each : ∀ p ∈ items, p.Gaining host config expand) :
    Gaining host config expand (.path items) := by
  intro datum before after member
  have crooked : ¬ (Pattern.path items).Straight := fun straight =>
    straight.path items (mem_nodes_self _)
  simp only [courseBy] at member
  rcases gains_followBy each member with ⟨captured, marks⟩
  rw [captures_of_own rfl]
  exact ⟨captured.widen (.refl _) crooked, fun mark marked => .inl (marks ▸ marked)⟩

theorem gaining_and (one : left.Gaining host config expand) (other : right.Gaining host config expand) :
    Gaining host config expand (.and left right) := by
  intro datum before after member
  simp only [courseBy] at member
  rcases Course.exists_of_mem_bind member with ⟨between, first, second⟩
  have both : (Pattern.and left right).captures = left.captures ++ right.captures := by
    simp [captures_eq (.and left right), ownCapture, children]
  rw [both]
  exact ((one datum before between first).imp fun straight => straight.child List.mem_cons_self).trans
    ((other datum between after second).imp fun straight =>
      straight.child (List.mem_cons_of_mem _ List.mem_cons_self))

theorem gaining_or (one : left.Gaining host config expand) (other : right.Gaining host config expand) :
    Gaining host config expand (.or left right) := by
  intro datum before after member
  have crooked : ¬ (Pattern.or left right).Straight := fun straight =>
    straight.or left right (mem_nodes_self _)
  have both : (Pattern.or left right).captures = left.captures ++ right.captures := by
    simp [captures_eq (.or left right), ownCapture, children]
  simp only [courseBy] at member
  rw [both]
  rcases Course.mem_or_of_mem_append member with here | there
  · exact (one datum before after here).widen (List.sublist_append_left _ _) crooked
  · exact (other datum before after there).widen (List.sublist_append_right _ _) crooked

theorem Plain.gaining {p : Pattern D K H} (plain : p.Plain) : p.Gaining host config expand := by
  induction p using TreeLike.induction_children with
  | step p ih =>
      have each : ∀ q ∈ p.children, q.Gaining host config expand :=
        fun q member => ih q member (plain.child member)
      cases p with
      | wild => exact gaining_wild
      | atom value => exact gaining_atom value
      | capture name => exact gaining_capture name
      | template name => exact gaining_template name
      | node kind items => exact gaining_node kind each
      | contents items => exact gaining_contents each
      | ofKind kind => exact gaining_ofKind kind
      | and left right => exact gaining_and (each left (.head _)) (each right (.tail _ (.head _)))
      | or left right => exact gaining_or (each left (.head _)) (each right (.tail _ (.head _)))
      | mark => exact gaining_mark
      | path steps => exact gaining_path each
      | window items => exact gaining_window each
      | test handle => exact gaining_test handle
      | generate handle => exact (plain handle (mem_nodes_self _)).elim

end Pattern

variable [TreeLike D K] [BEq D] [BEq K] {host : Host D K H}

theorem Enumerator.Answers.mem_course {e : Enumerator D K H}
    {replies : List (Reply D K H (Except MatchError (Option (Env D))))} (answers : Answers host e replies)
    {reply : Reply D K H (Except MatchError (Option (Env D)))} (member : reply ∈ replies) {env : Env D}
    (solution : reply.answer = .ok (some env)) :
    ∃ depth, ⟨env, reply.enumerator.frame.marks⟩ ∈ e.course host depth := by
  rcases answers.given with ⟨depth, gives⟩
  rcases List.getElem_of_mem member with ⟨i, bound, rfl⟩
  have known := gives.2 i bound
  rw [List.getElem?_map, List.getElem?_eq_getElem bound, Option.map_some, Reply.solved, solution] at known
  exact ⟨depth, Course.mem_of_answer? known⟩

/-- The captures of a pattern are its own followed by those of its subpatterns from left to right. The
names that a solution of a pattern without generators binds are some of them, in the same order and
each at most once, and they are bound to nodes of the datum. Without alternatives and paths they are
all bound. If no name is captured twice then the solutions are maps. -/
theorem names_sublist_captures (host : Host D K H) (root : D) (pattern : Pattern D K H)
    (config : MatchConfig) :
    (∀ p : Pattern D K H, p.captures = p.ownCapture ++ p.children.flatMap Pattern.captures) ∧
    ∀ fuel count replies reply env, pattern.Plain →
      (findWith root pattern config).advances host fuel count = some replies →
      reply ∈ replies → reply.answer = .ok (some env) →
      env.names.Sublist pattern.captures ∧
        (∀ binding ∈ env.bindings, binding.2 ∈ preorder root) ∧
        (pattern.Straight → env.names = pattern.captures) ∧
        (pattern.captures.Nodup → ∃ map, env.toUniqueMap = .ok map) := by
  refine ⟨Pattern.captures_eq, ?_⟩
  intro fuel count replies reply env plain returned member solution
  rcases (Enumerator.answers_of_advances returned).1.mem_course member solution with ⟨depth, item⟩
  rw [course_findWith] at item
  have gains : Env.empty.Gains root pattern.captures pattern.Straight env :=
    (plain.gaining root _ _ item).captures
  rcases gains with ⟨added, whole, sub, full, inside⟩
  have same : env = added := congrArg Env.mk whole
  rw [same, preorder_eq_nodes]
  exact ⟨sub, inside, full, fun nodup => Env.exists_toUniqueMap (sub.nodup nodup)⟩

theorem names_sublist_captures_window :
    let pattern : Pattern Tree String Unit := .and (.capture "x") (.window [.capture "y", .wild])
    let root : Tree := .list [.int 1, .int 2, .int 3]
    let host : Host Tree String Unit := ⟨fun _ _ => .ok true, fun _ _ => .ok .wild⟩
    pattern.Plain ∧ pattern.Straight ∧ pattern.captures.Nodup ∧
      ∃ replies reply env, (findWith root pattern {}).advances host 20 2 = some replies ∧
        reply ∈ replies ∧ reply.answer = .ok (some env) ∧ env.names = ["x", "y"] ∧
        (∀ binding ∈ env.bindings, binding.2 ∈ preorder root) ∧
        ∃ map, env.toUniqueMap = .ok map := by
  intro pattern root host
  have plain : pattern.Plain := by
    intro handle present
    simp [pattern, TreeLike.nodes_eq, TreeLike.children, Pattern.children] at present
  have straight : pattern.Straight := by
    constructor
    · intro left right present
      simp [pattern, TreeLike.nodes_eq, TreeLike.children, Pattern.children] at present
    · intro steps present
      simp [pattern, TreeLike.nodes_eq, TreeLike.children, Pattern.children] at present
  have captures : pattern.captures = ["x", "y"] := by
    simp [pattern, Pattern.captures_eq, Pattern.ownCapture, Pattern.children]
  have nodup : pattern.captures.Nodup := by
    rw [captures]
    decide
  have evaluated : ((findWith root pattern {}).advances host 20 2).map (List.map Reply.solves?) =
      some [some true, some true] := by decide
  rcases Option.map_eq_some_iff.mp evaluated with ⟨replies, returned, shown⟩
  rcases Reply.exists_solution shown (by decide) with ⟨reply, member, env, solution⟩
  rcases (names_sublist_captures host root pattern {}).2 20 2 replies reply env plain returned member
    solution with ⟨_, inside, full, unique⟩
  exact ⟨plain, straight, nodup, replies, reply, env, returned, member, solution,
    (full straight).trans captures, inside, unique nodup⟩

end TreeQuery
