import TreeQuery.Proofs.Enumerator.Onward
import TreeQuery.Proofs.Pattern.Variation
import TreeQuery.Tree

/-! A template variable whose name has been bound first. Whatever is bound after it, the variable stands
for this datum, so the datum may be put in its place. -/

namespace TreeQuery

open Course (BelowWithin)

variable {D K H : Type}

namespace Pattern

mutual

/-- Puts a datum in place of a template variable. What the host generates is left as it is. -/
def subst (name : String) (value : D) : Pattern D K H → Pattern D K H
  | .template other => if other = name then .atom value else .template other
  | .node kind items => .node kind (substAll name value items)
  | .contents items => .contents (substAll name value items)
  | .and left right => .and (subst name value left) (subst name value right)
  | .or left right => .or (subst name value left) (subst name value right)
  | .path steps => .path (substAll name value steps)
  | .window items => .window (substAll name value items)
  | .wild => .wild
  | .atom own => .atom own
  | .capture other => .capture other
  | .ofKind kind => .ofKind kind
  | .mark => .mark
  | .test handle => .test handle
  | .generate handle => .generate handle

def substAll (name : String) (value : D) : List (Pattern D K H) → List (Pattern D K H)
  | [] => []
  | p :: ps => subst name value p :: substAll name value ps

end

variable {name : String} {value : D}

theorem length_substAll (ps : List (Pattern D K H)) : ps.length = (substAll name value ps).length := by
  induction ps with
  | nil => rfl
  | cons p ps ih => rw [substAll, List.length_cons, List.length_cons, ih]

mutual

theorem varies_subst : ∀ p : Pattern D K H,
    Varies (fun p q => p = .template name ∧ q = .atom value) p (p.subst name value)
  | .template other => by
      rw [subst]
      by_cases same : other = name
      · rw [if_pos same, same]
        exact .exchange ⟨rfl, rfl⟩
      · rw [if_neg same]
        exact .template other
  | .node kind items => .node kind (length_substAll items) (varies_substAll items)
  | .contents items => .contents (length_substAll items) (varies_substAll items)
  | .and left right => .and (varies_subst left) (varies_subst right)
  | .or left right => .or (varies_subst left) (varies_subst right)
  | .path steps => .path (length_substAll steps) (varies_substAll steps)
  | .window items => .window (length_substAll items) (varies_substAll items)
  | .wild => .wild
  | .atom own => .atom own
  | .capture other => .capture other
  | .ofKind kind => .ofKind kind
  | .mark => .mark
  | .test handle => .test handle
  | .generate handle => .generate handle

theorem varies_substAll : ∀ ps : List (Pattern D K H), ∀ pair ∈ ps.zip (substAll name value ps),
    Varies (fun p q => p = .template name ∧ q = .atom value) pair.1 pair.2
  | [] => nofun
  | p :: ps => List.forall_mem_cons.mpr ⟨varies_subst p, varies_substAll ps⟩

end

end Pattern

def Env.Binds (name : String) (value : D) (env : Env D) : Prop := env.get? name = some value

theorem Env.Binds.bind {name : String} {value : D} (env : Env D) (other : String) (datum : D)
    (bound : env.Binds name value) : (env.bind other datum).Binds name value := by
  rw [Env.Binds, Env.get?_bind, bound, Option.some_or]

theorem Env.binds_first (name : String) (value : D) : (Env.empty.bind name value).Binds name value := by
  rw [Env.Binds, Env.get?_bind, beq_self_eq_true]
  rfl

variable [TreeLike D K] [BEq D] [BEq K] {host : Host D K H} {config : MatchConfig}

namespace Pattern

section Bound

variable (symmetric : ∀ a b : D, (a == b) = (b == a)) {name : String} {value : D}
  {expand expand' : Pattern D K H → D → Branch D → Course (Call D H) (Branch D)}

include symmetric

theorem courseBy_template_of_binds {branch : Branch D} (bound : branch.captures.Binds name value)
    (datum : D) :
    courseBy host config expand (.template name) datum branch = guardCourse branch (datum == value) := by
  have known : branch.captures.get? name = some value := bound
  simp only [courseBy, Branch.earliest?_eq, known, symmetric value datum]

theorem template_underlies_atom {visible : Call D H → Bool} :
    Underlies host visible config (Env.Binds name value) expand expand' (.template name)
      (.atom value) := by
  intro datum branch bound
  rw [courseBy_template_of_binds symmetric bound, courseBy, filter_guardCourse]
  exact guardCourse_within bound _

theorem atom_underlies_template {visible : Call D H → Bool} :
    Underlies host visible config (Env.Binds name value) expand expand' (.atom value)
      (.template name) := by
  intro datum branch bound
  rw [courseBy_template_of_binds symmetric bound, courseBy, filter_guardCourse]
  exact guardCourse_within bound _

end Bound

theorem course_capture_and (depth : Nat) (datum : D) (name : String) (q : Pattern D K H) :
    (findWith datum (.and (.capture name) q) config).course host depth =
      q.course host config (depth + 1) datum ⟨Env.empty.bind name datum, []⟩ := by
  rw [course_findWith, course, courseBy, courseBy, Course.pure_bind, Branch.bind_eq]

theorem agree_subst (symmetric : ∀ a b : D, (a == b) = (b == a)) (datum : D) (name : String)
    (q : Pattern D K H) :
    Enumerator.Agree host (fun _ => true) (fun branch branch' => branch = branch')
      (findWith datum (.and (.capture name) q) config)
      (findWith datum (.and (.capture name) (q.subst name datum)) config) := by
  refine (varies_subst q).agree Env.Binds.bind 0 0 (fun depth p q exchanged => ?_)
    (fun depth p q exchanged => ?_) datum (Env.binds_first name datum)
    (course_capture_and · datum name q) (course_capture_and · datum name _)
  · rcases exchanged with ⟨rfl, rfl⟩
    exact template_underlies_atom symmetric
  · rcases exchanged with ⟨rfl, rfl⟩
    exact atom_underlies_template symmetric

end Pattern

namespace Machine

section Captured

variable {datum : D} {name : String} {q : Pattern D K H}

theorem Reachable.captured {m : Machine D K H}
    (reachable : Reachable host (findWith datum (.and (.capture name) q) config) m) :
    let fresh := findWith datum (.and (.capture name) q) config
    let first : Frame D K H :=
      ⟨.empty, [.ofPattern datum (.capture name), .ofPattern datum q], []⟩
    m.outermost.reset = fresh ∧
      (m = .ask fresh [] ∨ m = ⟨fresh.branch first [], .working, []⟩ ∨
        Keeps (Env.empty.bind name datum) [] m) := by
  intro fresh first
  let second : Frame D K H := ⟨Env.empty.bind name datum, [.ofPattern datum q], []⟩
  have splits : (ask fresh []).step host = ([], .next ⟨fresh.branch first [], .working, []⟩) := rfl
  have binds : (⟨fresh.branch first [], .working, []⟩ : Machine D K H).step host =
      ([], .next ⟨fresh.branch second [], .working, []⟩) := rfl
  have begun : Keeps (Env.empty.bind name datum) [] ⟨fresh.branch second [], .working, []⟩ :=
    ⟨fun _ => .refl _, [], rfl, fun _ member => absurd member List.not_mem_nil⟩
  induction reachable with
  | start => exact ⟨rfl, .inl rfl⟩
  | next earlier now ih =>
      refine ⟨(step_of_eq now).reset_outermost.trans ih.1, .inr ?_⟩
      rcases ih.2 with rfl | rfl | keeps
      · cases splits.symm.trans now
        exact .inl rfl
      · cases binds.symm.trans now
        exact .inr begun
      · exact .inr (keeps.step (step_of_eq now) List.nil_suffix)
  | again earlier now ih =>
      refine ⟨(step_of_eq now).reset_outermost.trans ih.1, .inr (.inr ?_)⟩
      rcases ih.2 with rfl | rfl | keeps
      · cases splits.symm.trans now
      · cases binds.symm.trans now
      · exact keeps.halt (step_of_eq now)
  | @reset e earlier ih =>
      have same : e.reset = fresh := ih.1
      rw [same]
      exact ⟨rfl, .inl rfl⟩

theorem Reachable.bound {m : Machine D K H}
    (reachable : Reachable host (findWith datum (.and (.capture name) q) config) m)
    (working : m.phase = .working) {d : D} {work : List (Task D K H)}
    (task : m.active.frame.work = .ofPattern d (.template name) :: work) :
    m.active.frame.captures.get? name = some datum := by
  rcases reachable.captured.2 with rfl | rfl | keeps
  · cases task
  · cases task
  · exact (keeps.live working).get? (Env.binds_first name datum)

theorem step_template_of_some {m : Machine D K H} (working : m.phase = .working) {d value : D}
    {work : List (Task D K H)} (task : m.active.frame.work = .ofPattern d (.template name) :: work)
    (bound : m.active.frame.captures.get? name = some value) :
    ∃ events next, m.step host = (events, .next next) := by
  simp only [step, working, Machine.work, task, Task.ofPattern, Frame.perform, Frame.apply, bound]
  cases value == d with
  | false => exact ⟨_, _, rfl⟩
  | true => exact ⟨_, _, rfl⟩

end Captured

end Machine

/-- If a pattern begins by binding a name to the datum, then the datum may be put in place of the
template variables of the name in the rest of the pattern, with the same solutions, errors and calls.
The name may be bound again. In every state of the enumeration in which such a variable is to be
matched, in a path or outside, the name has the datum for its value, so it is no error even if template
variables are strict. -/
theorem capture_and_subst (host : Host D K H) (symmetric : ∀ a b : D, (a == b) = (b == a)) (datum : D)
    (name : String) (q : Pattern D K H) (config : MatchConfig) :
    Enumerator.Agree host (fun _ => true) (fun branch branch' => branch = branch')
      (findWith datum (.and (.capture name) q) config)
      (findWith datum (.and (.capture name) (q.subst name datum)) config) ∧
    ∀ m, Machine.Reachable host (findWith datum (.and (.capture name) q) config) m →
      m.phase = .working → ∀ d work, m.active.frame.work = .ofPattern d (.template name) :: work →
        m.active.frame.captures.get? name = some datum ∧
          ∃ events next, m.step host = (events, .next next) := by
  refine ⟨Pattern.agree_subst symmetric datum name q, fun m reachable working d work task => ?_⟩
  have bound := reachable.bound working task
  exact ⟨bound, Machine.step_template_of_some working task bound⟩

theorem capture_and_subst_items :
    let host : Host Tree String Unit := ⟨fun _ _ => .ok true, fun _ _ => .ok .wild⟩
    let datum : Tree := .list [.int 1, .sym "a"]
    let strict : MatchConfig := { strictTemplates := true }
    let items : Pattern Tree String Unit := .window [.capture "x"]
    (∀ a b : Tree, (a == b) = (b == a)) ∧
      Enumerator.Agree host (fun _ => true) (fun branch branch' => branch = branch')
        (findWith datum (.and (.capture "x") (.and items (.template "x"))) strict)
        (findWith datum (.and (.capture "x") (.and items (.atom datum))) strict) ∧
      ∃ replies,
        (findWith datum (.and (.capture "x") (.and items (.template "x"))) strict).advances host 20 3 =
          some replies ∧
        replies.map Reply.answer = [.ok (some ⟨[("x", datum), ("x", .int 1)]⟩),
          .ok (some ⟨[("x", datum), ("x", .sym "a")]⟩), .ok none] := by
  intro host datum strict items
  have law := (capture_and_subst host Tree.beq_comm datum "x" (.and items (.template "x")) strict).1
  have same : (Pattern.and items (.template "x")).subst "x" datum = .and items (.atom datum) := by
    simp only [items, Pattern.subst, Pattern.substAll, if_true]
  rw [same] at law
  exact ⟨Tree.beq_comm, law, _, rfl, rfl⟩

end TreeQuery
