import TreeQuery.Proofs.Pattern.Variation

/-! Patterns that may stand for one another inside any pattern. What a pattern shows decides what a
larger pattern shows that contains it. -/

namespace TreeQuery

open Course (Below)

variable {D K H : Type}

inductive Context (D K H : Type) where
  | hole
  | plain (pattern : Pattern D K H)
  | node (kind : K) (items : List (Context D K H))
  | contents (items : List (Context D K H))
  | and (left right : Context D K H)
  | or (left right : Context D K H)
  | path (steps : List (Context D K H))
  | window (items : List (Context D K H))

namespace Context

mutual

def fill (p : Pattern D K H) : Context D K H → Pattern D K H
  | .hole => p
  | .plain pattern => pattern
  | .node kind items => .node kind (fillAll p items)
  | .contents items => .contents (fillAll p items)
  | .and left right => .and (fill p left) (fill p right)
  | .or left right => .or (fill p left) (fill p right)
  | .path steps => .path (fillAll p steps)
  | .window items => .window (fillAll p items)

def fillAll (p : Pattern D K H) : List (Context D K H) → List (Pattern D K H)
  | [] => []
  | context :: contexts => fill p context :: fillAll p contexts

end

theorem length_fillAll (p : Pattern D K H) (contexts : List (Context D K H)) :
    (fillAll p contexts).length = contexts.length := by
  induction contexts with
  | nil => rfl
  | cons context contexts ih => rw [fillAll, List.length_cons, List.length_cons, ih]

theorem length_fillAll_eq (a b : Pattern D K H) (contexts : List (Context D K H)) :
    (fillAll a contexts).length = (fillAll b contexts).length :=
  (length_fillAll a contexts).trans (length_fillAll b contexts).symm

variable {a b : Pattern D K H}

mutual

theorem varies_fill : ∀ context : Context D K H,
    Pattern.Varies (fun p q => p = a ∧ q = b) (context.fill a) (context.fill b)
  | .hole => .exchange ⟨rfl, rfl⟩
  | .plain p => .refl p
  | .node kind items => .node kind (length_fillAll_eq a b items) (varies_fillAll items)
  | .contents items => .contents (length_fillAll_eq a b items) (varies_fillAll items)
  | .and left right => .and (varies_fill left) (varies_fill right)
  | .or left right => .or (varies_fill left) (varies_fill right)
  | .path steps => .path (length_fillAll_eq a b steps) (varies_fillAll steps)
  | .window items => .window (length_fillAll_eq a b items) (varies_fillAll items)

theorem varies_fillAll : ∀ contexts : List (Context D K H),
    ∀ pair ∈ (fillAll a contexts).zip (fillAll b contexts),
      Pattern.Varies (fun p q => p = a ∧ q = b) pair.1 pair.2
  | [] => nofun
  | context :: contexts =>
      List.forall_mem_cons.mpr ⟨varies_fill context, varies_fillAll contexts⟩

end

end Context

variable [TreeLike D K] [BEq D] [BEq K]

namespace Pattern

/-- Two patterns are interchangeable if all patterns that differ only in these two have enumerations
that agree in solutions, errors and visible calls. -/
def Interchangeable (host : Host D K H) (visible : Call D H → Bool) (a b : Pattern D K H) : Prop :=
  ∀ (context : Context D K H) (datum : D) (config : MatchConfig),
    Enumerator.Agree host visible (fun branch branch' => branch = branch')
      (findWith datum (context.fill a) config) (findWith datum (context.fill b) config)

abbrev sight (host : Host D K H) (visible : Call D H → Bool) (config : MatchConfig) (depth : Nat)
    (p : Pattern D K H) (datum : D) (branch : Branch D) : Course (Call D H) (Branch D) :=
  (p.course host config depth datum branch).filter visible

/-- All that the first pattern shows, the second one shows `lag` levels deeper. -/
def Refines (host : Host D K H) (visible : Call D H → Bool) (lag : Nat) (a b : Pattern D K H) : Prop :=
  ∀ config depth datum branch,
    Below (a.sight host visible config depth datum branch)
      (b.sight host visible config (lag + depth) datum branch)

variable {host : Host D K H} {visible : Call D H → Bool} {config : MatchConfig} {a b : Pattern D K H}

theorem course_add (lag depth : Nat) (p : Pattern D K H) (datum : D) (branch : Branch D) :
    Below (p.course host config depth datum branch)
      (p.course host config (lag + depth) datum branch) := by
  have grows : Course.Grows fun depth => p.course host config depth datum branch :=
    fun depth => course_below_succ depth p datum branch
  rw [Nat.add_comm]
  exact grows.add depth lag

theorem courseBy_fill {expand expand' : Pattern D K H → D → Branch D → Course (Call D H) (Branch D)}
    (more : ∀ p datum branch, Below (expand p datum branch) (expand' p datum branch))
    (hole : ∀ datum branch, Below ((courseBy host config expand a datum branch).filter visible)
      ((courseBy host config expand' b datum branch).filter visible))
    (context : Context D K H) (datum : D) (branch : Branch D) :
    Below ((courseBy host config expand (context.fill a) datum branch).filter visible)
      ((courseBy host config expand' (context.fill b) datum branch).filter visible) := by
  have exchanges : ∀ p q : Pattern D K H, p = a ∧ q = b →
      Underlies host visible config (fun _ => True) expand expand' p q := by
    rintro p q ⟨rfl, rfl⟩ datum branch _
    exact (hole datum branch).within
  have whole := context.varies_fill.underlies (fun _ _ _ _ => trivial)
    (fun p datum branch _ => ((more p datum branch).filter visible).within) exchanges
  exact (whole datum branch trivial).below

namespace Refines

variable {lag lag' : Nat} {c : Pattern D K H}

theorem trans (one : Refines host visible lag a b) (other : Refines host visible lag' b c) :
    Refines host visible (lag' + lag) a c := by
  intro config depth datum branch
  rw [Nat.add_assoc]
  exact (one config depth datum branch).trans (other config (lag + depth) datum branch)

theorem fill (refines : Refines host visible lag a b) (context : Context D K H) :
    Refines host visible lag (context.fill a) (context.fill b) := by
  intro config depth datum branch
  cases depth with
  | zero => exact .pending _
  | succ depth =>
      -- Generated patterns are the same on both sides; there the second side is only known further.
      have hole := fun datum branch => refines config (depth + 1) datum branch
      exact courseBy_fill (course_add lag depth) hole context datum branch

theorem leads (refines : Refines host visible lag a b) (datum : D) (config : MatchConfig) :
    Enumerator.Leads host visible (fun branch branch' => branch = branch')
      (findWith datum a config) (findWith datum b config) := by
  intro depth
  refine ⟨lag + depth, _, .refl (fun _ => rfl) _, ?_⟩
  rw [course_findWith, course_findWith]
  exact refines config (depth + 1) datum _

end Refines

def Equiv (host : Host D K H) (visible : Call D H → Bool) (a b : Pattern D K H) : Prop :=
  (∃ lag, Refines host visible lag a b) ∧ ∃ lag, Refines host visible lag b a

namespace Equiv

theorem of_eq (same : ∀ config depth datum branch,
    a.sight host visible config (depth + 1) datum branch =
      b.sight host visible config (depth + 1) datum branch) : Equiv host visible a b := by
  have refines {a b : Pattern D K H} (same : ∀ config depth datum branch,
      a.sight host visible config (depth + 1) datum branch =
        b.sight host visible config (depth + 1) datum branch) : Refines host visible 0 a b := by
    intro config depth datum branch
    rw [Nat.zero_add]
    cases depth with
    | zero => exact .pending _
    | succ depth => exact .of_eq (same config depth datum branch)
  exact ⟨⟨0, refines same⟩, 0, refines fun config depth datum branch =>
    (same config depth datum branch).symm⟩

theorem refl (a : Pattern D K H) : Equiv host visible a a :=
  of_eq fun _ _ _ _ => rfl

theorem symm (equiv : Equiv host visible a b) : Equiv host visible b a := ⟨equiv.2, equiv.1⟩

theorem trans {c : Pattern D K H} (one : Equiv host visible a b) (other : Equiv host visible b c) :
    Equiv host visible a c := by
  rcases one with ⟨⟨_, there⟩, _, back⟩
  rcases other with ⟨⟨_, there'⟩, _, back'⟩
  exact ⟨⟨_, there.trans there'⟩, _, back'.trans back⟩

theorem interchangeable (equiv : Equiv host visible a b) : Interchangeable host visible a b := by
  rcases equiv with ⟨⟨_, there⟩, _, back⟩
  intro context datum config
  exact Enumerator.agree_of_leads ((there.fill context).leads datum config)
    ((back.fill context).leads datum config)

end Equiv

end Pattern

end TreeQuery
