import TreeQuery.Proofs.Pattern.Context
import TreeQuery.Proofs.Pattern.Marks
import TreeQuery.Tree

/-! A step of a path that marks nothing. The path ends with it, so it is as good as its first step; if
paths are strict and further steps follow, each solution of the step is an error. -/

namespace TreeQuery

open Course (Alike)

variable {D K H : Type}

def failSolution {α : Type} (error : MatchError) :
    Except MatchError (Option α) → Except MatchError (Option α)
  | .ok (some _) => .error error
  | .ok none => .ok none
  | .error own => .error own

theorem failSolution_map {α β : Type} (error : MatchError) (f : α → β)
    (answer : Except MatchError (Option α)) :
    failSolution error (answer.map (Option.map f)) =
      (failSolution error answer).map (Option.map f) := by
  rcases answer with own | _ | a <;> rfl

namespace Course

variable {E A : Type}

theorem eventsUntil_bind_failed (error : MatchError) (c : Course E A) :
    (c.bind fun _ => (failed error : Course E A)).eventsUntil 1 = c.eventsUntil 1 := by
  induction c with
  | done | failed error' | pending => rfl
  | event e rest ih => rw [bind, eventsUntil, eventsUntil, ih]
  | item a rest ih => rw [bind, failed_append, eventsUntil, eventsUntil, eventsUntil]

theorem answer?_bind_failed (error : MatchError) (c : Course E A) :
    (c.bind fun _ => (failed error : Course E A)).results.answer? 0 =
      (c.results.answer? 0).map (failSolution error) := by
  induction c with
  | done | failed error' | pending => rfl
  | event e rest ih => exact ih
  | item a rest ih => rfl

end Course

namespace Pattern

/-- No mark and no generator occurs in the pattern outside the paths in it. -/
inductive Markless : Pattern D K H → Prop where
  | wild : Markless .wild
  | atom (value : D) : Markless (.atom value)
  | capture (name : String) : Markless (.capture name)
  | template (name : String) : Markless (.template name)
  | node (kind : K) {items : List (Pattern D K H)} (each : ∀ p ∈ items, Markless p) :
      Markless (.node kind items)
  | contents {items : List (Pattern D K H)} (each : ∀ p ∈ items, Markless p) :
      Markless (.contents items)
  | ofKind (kind : K) : Markless (.ofKind kind)
  | and {left right : Pattern D K H} (one : Markless left) (other : Markless right) :
      Markless (.and left right)
  | or {left right : Pattern D K H} (one : Markless left) (other : Markless right) :
      Markless (.or left right)
  | path (steps : List (Pattern D K H)) : Markless (.path steps)
  | window {items : List (Pattern D K H)} (each : ∀ p ∈ items, Markless p) :
      Markless (.window items)
  | test (handle : H) : Markless (.test handle)

variable [TreeLike D K] [BEq D] [BEq K] {host : Host D K H} {config : MatchConfig}
variable {expand : Pattern D K H → D → Branch D → Course (Call D H) (Branch D)}
variable {M : List D → List D → Prop}

theorem Markless.handsOn {p : Pattern D K H} (markless : p.Markless) :
    HandsOn host config expand M p p := by
  induction markless with
  | wild => exact .wild
  | atom value => exact .atom value
  | capture name => exact .capture name
  | template name => exact .template name
  | node kind each ih => exact .node kind (List.forall₂_same.mpr ih)
  | contents each ih => exact .contents (List.forall₂_same.mpr ih)
  | ofKind kind => exact .ofKind kind
  | and one other ih ih' => exact .and ih ih'
  | or one other ih ih' => exact .or ih ih'
  | path steps => exact .path steps
  | window each ih => exact .window (List.forall₂_same.mpr ih)
  | test handle => exact .test handle

theorem Markless.course_path {p : Pattern D K H} (markless : p.Markless) (rest : List (Pattern D K H))
    (datum : D) (branch : Branch D) :
    courseBy host config expand (.path (p :: rest)) datum branch =
      (courseBy host config expand p datum branch).bind fun solved =>
        if config.strictPaths && 0 < rest.length then .failed (.danglingPath 0 rest.length)
        else .pure solved := by
  let M (marks marks' : List D) := marks = [] ∧ marks' = branch.marks
  have alike : Alike (Branch.Like M) (courseBy host config expand p datum ⟨branch.captures, []⟩)
      (courseBy host config expand p datum branch) := markless.handsOn datum ⟨rfl, rfl, rfl⟩
  rw [courseBy, followBy]
  refine alike.bind_eq ?_
  rintro ⟨captures, marks⟩ ⟨captures', marks'⟩ ⟨same, none, kept⟩
  cases same
  cases none
  cases kept
  rfl

theorem Markless.course_path_lenient {p : Pattern D K H} (markless : p.Markless)
    {rest : List (Pattern D K H)} (lenient : config.strictPaths = false ∨ rest = []) (datum : D)
    (branch : Branch D) :
    courseBy host config expand (.path (p :: rest)) datum branch =
      courseBy host config expand p datum branch := by
  have ends : (config.strictPaths && decide (0 < rest.length)) = false := by
    rcases lenient with lenient | rfl
    · rw [lenient, Bool.false_and]
    · exact Bool.and_false _
  calc
    _ = (courseBy host config expand p datum branch).bind Course.pure := by
      rw [markless.course_path, ends]
      rfl
    _ = courseBy host config expand p datum branch := Course.bind_pure _

theorem Markless.course_path_strict {p : Pattern D K H} (markless : p.Markless)
    {rest : List (Pattern D K H)} (strict : config.strictPaths = true) (more : rest ≠ []) (datum : D)
    (branch : Branch D) :
    courseBy host config expand (.path (p :: rest)) datum branch =
      (courseBy host config expand p datum branch).bind fun _ =>
        .failed (.danglingPath 0 rest.length) := by
  have dangles : (config.strictPaths && decide (0 < rest.length)) = true := by
    rw [strict, Bool.true_and, decide_eq_true_iff]
    exact List.length_pos_of_ne_nil more
  rw [markless.course_path, dangles]
  rfl

theorem agree_fill {visible : Call D H → Bool} {a b : Pattern D K H}
    (same : ∀ expand datum branch, courseBy host config expand a datum branch =
      courseBy host config expand b datum branch) (context : Context D K H) (datum : D) :
    Enumerator.Agree host visible (fun branch branch' => branch = branch')
      (findWith datum (context.fill a) config) (findWith datum (context.fill b) config) := by
  have leads {a b : Pattern D K H} (same : ∀ expand datum branch,
      courseBy host config expand a datum branch = courseBy host config expand b datum branch) :
      Enumerator.Leads host visible (fun branch branch' => branch = branch')
        (findWith datum (context.fill a) config) (findWith datum (context.fill b) config) := by
    intro depth
    refine ⟨depth, _, .refl (fun _ => rfl) _, ?_⟩
    rw [course_findWith, course_findWith]
    refine courseBy_fill (fun _ _ _ => .refl _) (fun datum branch => .of_eq ?_) context datum _
    rw [same]
  exact Enumerator.agree_of_leads (leads same) (leads fun expand datum branch =>
    (same expand datum branch).symm)

end Pattern

variable [TreeLike D K] [BEq D] [BEq K]

theorem Enumerator.exists_advance_failed {host : Host D K H} {e e' : Enumerator D K H}
    {error : MatchError}
    (course : ∀ depth, e'.course host depth = (e.course host depth).bind fun _ => .failed error)
    {answer : Except MatchError (Option (Env D))} {calls : List (Call D H)} :
    (∃ fuel reply, e'.advance host fuel = some reply ∧ reply.answer = answer ∧ reply.calls = calls) ↔
      ∃ fuel reply, e.advance host fuel = some reply ∧ failSolution error reply.answer = answer ∧
        reply.calls = calls := by
  have first (depth : Nat) : ((e'.course host depth).results.map Branch.captures).answer? 0 =
      (((e.course host depth).results.map Branch.captures).answer? 0).map (failSolution error) := by
    rw [course, Results.answer?_map, Course.answer?_bind_failed, Results.answer?_map, Option.map_map,
      Option.map_map]
    exact congrArg (Option.map · _) (funext fun solved => (failSolution_map error _ solved).symm)
  constructor
  · intro replies
    rcases exists_advance_iff.mp replies with ⟨depth, known, answered⟩
    rw [course, Course.eventsUntil_bind_failed] at known
    rw [first, Option.map_eq_some_iff] at answered
    rcases answered with ⟨own, found, rfl⟩
    rcases exists_advance_iff.mpr ⟨depth, known, found⟩ with ⟨fuel, reply, returned, rfl, made⟩
    exact ⟨fuel, reply, returned, rfl, made⟩
  · rintro ⟨fuel, reply, returned, rfl, rfl⟩
    rcases exists_advance_iff.mp ⟨fuel, reply, returned, rfl, rfl⟩ with ⟨depth, known, found⟩
    refine exists_advance_iff.mpr ⟨depth, ?_, ?_⟩
    · rw [course, Course.eventsUntil_bind_failed, known]
    · rw [first, found, Option.map_some]

/-- A path whose first step marks nothing may stand for this step in any pattern, and the step for the
path, if paths are not strict or no further step follows. In strict paths with further steps the first
answer is that of the step, with an error in place of a solution, and the calls are the same. -/
theorem path_markless (host : Host D K H) (config : MatchConfig) {p : Pattern D K H}
    (markless : p.Markless) (rest : List (Pattern D K H)) :
    (config.strictPaths = false ∨ rest = [] → ∀ (context : Context D K H) (datum : D),
      Enumerator.Agree host (fun _ => true) (fun branch branch' => branch = branch')
        (findWith datum (context.fill (.path (p :: rest))) config)
        (findWith datum (context.fill p) config)) ∧
    (config.strictPaths = true → rest ≠ [] → ∀ datum answer calls,
      (∃ fuel reply, (findWith datum (.path (p :: rest)) config).advance host fuel = some reply ∧
        reply.answer = answer ∧ reply.calls = calls) ↔
      ∃ fuel reply, (findWith datum p config).advance host fuel = some reply ∧
        failSolution (.danglingPath 0 rest.length) reply.answer = answer ∧ reply.calls = calls) := by
  constructor
  · intro lenient context datum
    exact Pattern.agree_fill (fun _ _ _ => markless.course_path_lenient lenient _ _) context datum
  · intro strict more datum answer calls
    have course (depth : Nat) : (findWith datum (.path (p :: rest)) config).course host depth =
        ((findWith datum p config).course host depth).bind fun _ =>
          .failed (.danglingPath 0 rest.length) := by
      rw [course_findWith, course_findWith]
      exact markless.course_path_strict strict more datum _
    exact Enumerator.exists_advance_failed course

def noTests : Host Tree String Unit :=
  ⟨fun _ _ => .error (.host "called"), fun _ _ => .error (.host "called")⟩

def captureThenPath : Pattern Tree String Unit := .and (.capture "x") (.path [.mark, .wild])

theorem path_markless_capture :
    captureThenPath.Markless ∧ ({} : MatchConfig).strictPaths = false ∧
      Enumerator.Agree noTests (fun _ => true) (fun branch branch' => branch = branch')
        (findWith (.list [.int 1]) (.contents [.path [captureThenPath, .test ()]]) {})
        (findWith (.list [.int 1]) (.contents [captureThenPath]) {}) ∧
      ({ strictPaths := true } : MatchConfig).strictPaths = true ∧
      ∃ fuel reply,
        (findWith (.int 1) (.path [captureThenPath, .test ()]) { strictPaths := true }).advance
          noTests fuel = some reply ∧ reply.answer = .error (.danglingPath 0 1) ∧ reply.calls = [] := by
  have markless : captureThenPath.Markless := .and (.capture "x") (.path _)
  refine ⟨markless, rfl, ?_, rfl, ?_⟩
  · exact (path_markless noTests {} markless [.test ()]).1 (.inl rfl) (.contents [.hole]) _
  · apply ((path_markless noTests { strictPaths := true } markless [.test ()]).2 rfl nofun _ _ _).mpr
    exact ⟨20, _, rfl, rfl, rfl⟩

end TreeQuery
