import Mathlib.Data.List.Zip
import TreeQuery.Proofs.Course.Within
import TreeQuery.Proofs.Enumerator.Agreement

/-! Patterns that differ in some of their subpatterns. If what stands in place of a subpattern shows no
less than it, then so does the whole pattern. -/

namespace TreeQuery

open Course (Below BelowWithin)

variable {D K H : Type}

namespace Pattern

/-- The second pattern is the first one with `base` exchanges at any number of places in it. -/
inductive Varies (base : Pattern D K H → Pattern D K H → Prop) :
    Pattern D K H → Pattern D K H → Prop where
  | exchange {p q : Pattern D K H} (exchanged : base p q) : Varies base p q
  | wild : Varies base .wild .wild
  | atom (value : D) : Varies base (.atom value) (.atom value)
  | capture (name : String) : Varies base (.capture name) (.capture name)
  | template (name : String) : Varies base (.template name) (.template name)
  | ofKind (kind : K) : Varies base (.ofKind kind) (.ofKind kind)
  | mark : Varies base .mark .mark
  | test (handle : H) : Varies base (.test handle) (.test handle)
  | generate (handle : H) : Varies base (.generate handle) (.generate handle)
  | node (kind : K) {items items' : List (Pattern D K H)} (length : items.length = items'.length)
      (each : ∀ pair ∈ items.zip items', Varies base pair.1 pair.2) :
      Varies base (.node kind items) (.node kind items')
  | contents {items items' : List (Pattern D K H)} (length : items.length = items'.length)
      (each : ∀ pair ∈ items.zip items', Varies base pair.1 pair.2) :
      Varies base (.contents items) (.contents items')
  | and {left left' right right' : Pattern D K H} (one : Varies base left left')
      (other : Varies base right right') : Varies base (.and left right) (.and left' right')
  | or {left left' right right' : Pattern D K H} (one : Varies base left left')
      (other : Varies base right right') : Varies base (.or left right) (.or left' right')
  | path {steps steps' : List (Pattern D K H)} (length : steps.length = steps'.length)
      (each : ∀ pair ∈ steps.zip steps', Varies base pair.1 pair.2) :
      Varies base (.path steps) (.path steps')
  | window {items items' : List (Pattern D K H)} (length : items.length = items'.length)
      (each : ∀ pair ∈ items.zip items', Varies base pair.1 pair.2) :
      Varies base (.window items) (.window items')

variable {base : Pattern D K H → Pattern D K H → Prop}

mutual

theorem Varies.refl : ∀ p : Pattern D K H, Varies base p p
  | .wild => .wild
  | .atom value => .atom value
  | .capture name => .capture name
  | .template name => .template name
  | .node kind items => .node kind rfl (reflAll items)
  | .contents items => .contents rfl (reflAll items)
  | .ofKind kind => .ofKind kind
  | .and left right => .and (refl left) (refl right)
  | .or left right => .or (refl left) (refl right)
  | .mark => .mark
  | .path steps => .path rfl (reflAll steps)
  | .window items => .window rfl (reflAll items)
  | .test handle => .test handle
  | .generate handle => .generate handle

theorem Varies.reflAll : ∀ ps : List (Pattern D K H), ∀ pair ∈ ps.zip ps, Varies base pair.1 pair.2
  | [] => nofun
  | p :: ps => List.forall_mem_cons.mpr ⟨refl p, reflAll ps⟩

end

theorem Varies.flip {p q : Pattern D K H} (varies : Varies base p q) :
    Varies (fun q p => base p q) q p := by
  have swapped {ps qs : List (Pattern D K H)}
      (each : ∀ pair ∈ ps.zip qs, Varies (fun q p => base p q) pair.2 pair.1) :
      ∀ pair ∈ qs.zip ps, Varies (fun q p => base p q) pair.1 pair.2 := by
    intro pair member
    rw [← List.zip_swap] at member
    rcases List.mem_map.mp member with ⟨other, present, rfl⟩
    exact each other present
  induction varies with
  | exchange exchanged => exact .exchange exchanged
  | wild | atom | capture | template | ofKind | mark | test | generate => exact .refl _
  | node kind length each ih => exact .node kind length.symm (swapped ih)
  | contents length each ih => exact .contents length.symm (swapped ih)
  | and one other ih ih' => exact .and ih ih'
  | or one other ih ih' => exact .or ih ih'
  | path length each ih => exact .path length.symm (swapped ih)
  | window length each ih => exact .window length.symm (swapped ih)

theorem filter_leaveStep (visible : Call D H → Bool) (config : MatchConfig) (step remaining : Nat)
    (marks : List D) (next : D → Branch D → Course (Call D H) (Branch D)) (solved : Branch D) :
    (leaveStep config step remaining marks next solved).filter visible =
      leaveStep config step remaining marks
        (fun mark branch => (next mark branch).filter visible) solved := by
  unfold leaveStep
  split
  · split <;> rfl
  · exact Course.filter_concat visible _ _

theorem filter_guardCourse (visible : Call D H → Bool) (branch : Branch D) (passes : Bool) :
    (guardCourse branch passes : Course (Call D H) (Branch D)).filter visible =
      guardCourse branch passes := by
  cases passes <;> rfl

section Leaves

variable {config : MatchConfig} {P : Env D → Prop} {branch : Branch D}

theorem guardCourse_within (holds : P branch.captures) (passes : Bool) :
    BelowWithin (fun b : Branch D => P b.captures)
      (guardCourse branch passes : Course (Call D H) (Branch D)) (guardCourse branch passes) := by
  cases passes with
  | false => exact .done
  | true => exact .pure holds

theorem leaveStep_within (step remaining : Nat) (marks : List D)
    {next next' : D → Branch D → Course (Call D H) (Branch D)}
    (later : ∀ mark branch, P branch.captures →
      BelowWithin (fun b => P b.captures) (next mark branch) (next' mark branch))
    {solved : Branch D} (holds : P solved.captures) :
    BelowWithin (fun b => P b.captures) (leaveStep config step remaining marks next solved)
      (leaveStep config step remaining marks next' solved) := by
  unfold leaveStep
  split
  · split
    · exact .failed _
    · exact .pure holds
  · exact .concat _ fun mark => later mark _ holds

end Leaves

variable [TreeLike D K] [BEq D] [BEq K]

/-- Wherever the bindings of the branch have the property, the second pattern shows no less than the
first one, and the bindings of the solutions have the property too. -/
def Underlies (host : Host D K H) (visible : Call D H → Bool) (config : MatchConfig)
    (P : Env D → Prop) (expand expand' : Pattern D K H → D → Branch D → Course (Call D H) (Branch D))
    (p q : Pattern D K H) : Prop :=
  ∀ (datum : D) (branch : Branch D), P branch.captures →
    BelowWithin (fun b => P b.captures)
      ((courseBy host config expand p datum branch).filter visible)
      ((courseBy host config expand' q datum branch).filter visible)

variable {host : Host D K H} {visible : Call D H → Bool} {config : MatchConfig} {P : Env D → Prop}
  {expand expand' : Pattern D K H → D → Branch D → Course (Call D H) (Branch D)}

theorem threadBy_within {items items' : List (Pattern D K H)} (length : items.length = items'.length)
    (each : ∀ pair ∈ items.zip items',
      Underlies host visible config P expand expand' pair.1 pair.2)
    (data : List D) {branch : Branch D} (holds : P branch.captures) :
    BelowWithin (fun b => P b.captures)
      ((threadBy host config expand items data branch).filter visible)
      ((threadBy host config expand' items' data branch).filter visible) := by
  induction items generalizing items' data branch with
  | nil =>
      obtain rfl : items' = [] := List.eq_nil_of_length_eq_zero length.symm
      simp only [threadBy]
      exact .pure holds
  | cons p ps ih =>
      cases items' with
      | nil => cases length
      | cons q qs =>
          cases data with
          | nil =>
              simp only [threadBy]
              exact .pure holds
          | cons datum data =>
              rw [List.zip_cons_cons, List.forall_mem_cons] at each
              simp only [threadBy, Course.filter_bind]
              exact (each.1 datum branch holds).bind fun between kept =>
                ih (Nat.succ.inj length) each.2 data kept

theorem followBy_within {steps steps' : List (Pattern D K H)} (length : steps.length = steps'.length)
    (each : ∀ pair ∈ steps.zip steps',
      Underlies host visible config P expand expand' pair.1 pair.2)
    (step : Nat) (datum : D) {branch : Branch D} (holds : P branch.captures) :
    BelowWithin (fun b => P b.captures)
      ((followBy host config expand steps step datum branch).filter visible)
      ((followBy host config expand' steps' step datum branch).filter visible) := by
  induction steps generalizing steps' step datum branch with
  | nil =>
      obtain rfl : steps' = [] := List.eq_nil_of_length_eq_zero length.symm
      simp only [followBy]
      exact .pure holds
  | cons p ps ih =>
      cases steps' with
      | nil => cases length
      | cons q qs =>
          have rest : ps.length = qs.length := Nat.succ.inj length
          rw [List.zip_cons_cons, List.forall_mem_cons] at each
          simp only [followBy, Course.filter_bind, filter_leaveStep, rest]
          have first := each.1 datum ⟨branch.captures, []⟩ holds
          refine first.bind fun solved kept => leaveStep_within step _ _ (fun mark _ kept => ?_) kept
          exact ih rest each.2 (step + 1) mark kept

/-- A pattern with exchanges shows no less than the pattern without them if each exchange shows no
less, on all branches whose bindings have a property that further bindings keep. -/
theorem Varies.underlies (bind : ∀ env name datum, P env → P (env.bind name datum))
    (more : ∀ p datum branch, P branch.captures → BelowWithin (fun b => P b.captures)
      ((expand p datum branch).filter visible) ((expand' p datum branch).filter visible))
    (exchanges : ∀ p q, base p q → Underlies host visible config P expand expand' p q)
    {p q : Pattern D K H} (varies : Varies base p q) :
    Underlies host visible config P expand expand' p q := by
  induction varies with
  | exchange exchanged => exact exchanges _ _ exchanged
  | wild | mark =>
      intro datum branch holds
      simp only [courseBy]
      exact .pure holds
  | atom value | ofKind kind =>
      intro datum branch holds
      simp only [courseBy, filter_guardCourse]
      exact guardCourse_within holds _
  | capture name =>
      intro datum branch holds
      simp only [courseBy]
      exact .pure (bind _ name datum holds)
  | template name =>
      intro datum branch holds
      simp only [courseBy]
      split
      · rw [filter_guardCourse]
        exact guardCourse_within holds _
      · split
        · exact .failed _
        · exact .done
  | test handle =>
      intro datum branch holds
      simp only [courseBy]
      refine .filter_event _ ?_
      split
      · rw [filter_guardCourse]
        exact guardCourse_within holds _
      · exact .failed _
  | generate handle =>
      intro datum branch holds
      simp only [courseBy]
      refine .filter_event _ ?_
      split
      · exact more _ datum branch holds
      · exact .failed _
  | node kind length each ih =>
      intro datum branch holds
      simp only [courseBy, length]
      split
      · exact threadBy_within length ih _ holds
      · exact .done
  | contents length each ih =>
      intro datum branch holds
      simp only [courseBy, length]
      split
      · exact threadBy_within length ih _ holds
      · exact .done
  | and one other ih ih' =>
      intro datum branch holds
      simp only [courseBy, Course.filter_bind]
      exact (ih datum branch holds).bind (ih' datum)
  | or one other ih ih' =>
      intro datum branch holds
      simp only [courseBy, Course.filter_append]
      exact (ih datum branch holds).append (ih' datum branch holds)
  | path length each ih =>
      intro datum branch holds
      simp only [courseBy]
      exact followBy_within length ih 0 datum holds
  | window length each ih =>
      intro datum branch holds
      simp only [courseBy, length, Course.filter_concat]
      exact .concat _ fun run => threadBy_within length ih run holds

section Depth

variable {p q : Pattern D K H}
  (bind : ∀ env name datum, P env → P (env.bind name datum))

include bind

theorem Varies.course_within {lag : Nat}
    (exchanges : ∀ depth p q, base p q → Underlies host visible config P (course host config depth)
      (course host config (lag + depth)) p q)
    (varies : Varies base p q) (depth : Nat) (datum : D) {branch : Branch D} (holds : P branch.captures) :
    BelowWithin (fun b => P b.captures) ((p.course host config depth datum branch).filter visible)
      ((q.course host config (lag + depth) datum branch).filter visible) := by
  induction depth generalizing p q datum branch with
  | zero => exact .pending _
  | succ depth ih =>
      -- Generated patterns are the same on both sides, without any exchanges.
      exact varies.underlies bind (fun p datum branch holds => ih (.refl p) datum holds)
        (exchanges depth) datum branch holds

theorem Varies.agree (lag lag' : Nat)
    (there : ∀ depth p q, base p q → Underlies host visible config P (course host config depth)
      (course host config (lag + depth)) p q)
    (back : ∀ depth p q, base p q → Underlies host visible config P (course host config depth)
      (course host config (lag' + depth)) q p)
    (varies : Varies base p q) (datum : D) {branch : Branch D} (holds : P branch.captures)
    {e e' : Enumerator D K H}
    (first : ∀ depth, e.course host depth = p.course host config (depth + 1) datum branch)
    (second : ∀ depth, e'.course host depth = q.course host config (depth + 1) datum branch) :
    Enumerator.Agree host visible (fun branch branch' => branch = branch') e e' := by
  have leads {base : Pattern D K H → Pattern D K H → Prop} {lag : Nat} {p q : Pattern D K H}
      {e e' : Enumerator D K H}
      (exchanges : ∀ depth p q, base p q → Underlies host visible config P
        (course host config depth) (course host config (lag + depth)) p q)
      (varies : Varies base p q)
      (first : ∀ depth, e.course host depth = p.course host config (depth + 1) datum branch)
      (second : ∀ depth, e'.course host depth = q.course host config (depth + 1) datum branch) :
      Enumerator.Leads host visible (fun branch branch' => branch = branch') e e' := by
    intro depth
    refine ⟨lag + depth, _, .refl (fun _ => rfl) _, ?_⟩
    rw [first, second]
    exact (varies.course_within bind exchanges (depth + 1) datum holds).below
  exact Enumerator.agree_of_leads (leads there varies first second)
    (leads (fun depth q p => back depth p q) varies.flip second first)

end Depth

end Pattern

end TreeQuery
