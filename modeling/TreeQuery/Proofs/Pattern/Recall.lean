import TreeQuery.Proofs.Pattern.Variation
import TreeQuery.Tree

/-! Template variables written by the host. A generator that looks a name up in the environment that it
is called with sees what a template variable of this name sees. -/

namespace TreeQuery

open Course (Below BelowWithin)

variable {D K H : Type}

/-- The generator gives the datum to which its environment binds the name, and if the name is not bound
a test that fails on all data. Neither the generator nor such a test is visible. -/
structure Host.Recalls (host : Host D K H) (visible : Call D H → Bool) (name : String) (handle : H) :
    Prop where
  hidden (env : Env D) : visible (.generate handle env) = false
  bound (env : Env D) (value : D) (known : env.get? name = some value) :
    host.generate handle env = .ok (.atom value)
  unbound (env : Env D) (unknown : env.get? name = none) :
    ∃ never, host.generate handle env = .ok (.test never) ∧
      ∀ datum, host.test never datum = .ok false ∧ visible (.test never datum) = false

namespace Pattern

def RecalledBy (host : Host D K H) (visible : Call D H → Bool) (p q : Pattern D K H) : Prop :=
  ∃ name handle, p = .template name ∧ q = .generate handle ∧ host.Recalls visible name handle

variable [TreeLike D K] [BEq D] [BEq K] {host : Host D K H} {visible : Call D H → Bool}
  {config : MatchConfig} {name : String} {handle : H}

theorem filter_generate_of_recalls (recalls : host.Recalls visible name handle)
    (lenient : config.strictTemplates = false) (symmetric : ∀ a b : D, (a == b) = (b == a))
    {expand : Pattern D K H → D → Branch D → Course (Call D H) (Branch D)} (depth : Nat) (datum : D)
    (branch : Branch D) :
    (courseBy host config (course host config (depth + 1)) (.generate handle) datum branch).filter
        visible =
      (courseBy host config expand (.template name) datum branch).filter visible := by
  have asked (made : Pattern D K H) (generated : host.generate handle branch.captures = .ok made) :
      (courseBy host config (course host config (depth + 1)) (.generate handle) datum branch).filter
          visible =
        (courseBy host config (course host config depth) made datum branch).filter visible := by
    rw [courseBy, generated, Course.filter, recalls.hidden, if_neg Bool.false_ne_true]
    rfl
  cases known : branch.captures.get? name with
  | some value =>
      rw [asked _ (recalls.bound _ value known)]
      simp only [courseBy, Branch.earliest?_eq, known, symmetric datum value]
  | none =>
      rcases recalls.unbound _ known with ⟨never, generated, fails⟩
      rw [asked _ generated]
      simp only [courseBy, Branch.earliest?_eq, known, lenient, (fails datum).1, Course.filter,
        (fails datum).2, Bool.false_eq_true, if_false]
      rfl

theorem template_underlies (recalls : host.Recalls visible name handle)
    (lenient : config.strictTemplates = false) (symmetric : ∀ a b : D, (a == b) = (b == a))
    (depth : Nat) :
    Underlies host visible config (fun _ => True) (course host config depth)
      (course host config (1 + depth)) (.template name) (.generate handle) := by
  intro datum branch _
  rw [Nat.add_comm, filter_generate_of_recalls recalls lenient symmetric]
  exact (Below.refl _).within

theorem generate_underlies (recalls : host.Recalls visible name handle)
    (lenient : config.strictTemplates = false) (symmetric : ∀ a b : D, (a == b) = (b == a))
    (depth : Nat) :
    Underlies host visible config (fun _ => True) (course host config depth)
      (course host config (0 + depth)) (.generate handle) (.template name) := by
  intro datum branch _
  rw [← filter_generate_of_recalls recalls lenient symmetric depth datum branch]
  exact ((courseBy_mono (course_below_succ depth) _ datum branch).filter visible).within

end Pattern

variable [TreeLike D K] [BEq D] [BEq K]

/-- Where template variables are not strict, any number of them may be replaced by generators that look
the name up in the environment and give the datum that they find, or a test that fails. The solutions
and errors are the same, and so are the calls, those of the generators and of these tests apart. -/
theorem template_generate (host : Host D K H) (visible : Call D H → Bool)
    (symmetric : ∀ a b : D, (a == b) = (b == a)) {p q : Pattern D K H}
    (varies : p.Varies (Pattern.RecalledBy host visible) q) (datum : D) (config : MatchConfig)
    (lenient : config.strictTemplates = false) :
    Enumerator.Agree host visible (fun branch branch' => branch = branch') (findWith datum p config)
      (findWith datum q config) := by
  refine varies.agree (P := fun _ => True) (fun _ _ _ _ => trivial) 1 0 (fun depth p q exchanged => ?_)
    (fun depth p q exchanged => ?_) datum trivial (course_findWith · datum p config)
    (course_findWith · datum q config)
  · rcases exchanged with ⟨name, handle, rfl, rfl, recalls⟩
    exact Pattern.template_underlies recalls lenient symmetric depth
  · rcases exchanged with ⟨name, handle, rfl, rfl, recalls⟩
    exact Pattern.generate_underlies recalls lenient symmetric depth

def recallHost : Host Tree String String where
  test _ _ := .ok false
  generate name env :=
    match env.get? name with
    | some value => .ok (.atom value)
    | none => .ok (.test "never")

theorem recallHost_recalls (name : String) : recallHost.Recalls (fun _ => false) name name where
  hidden _ := rfl
  bound env value known := by
    simp only [recallHost, known]
  unbound env unknown := by
    refine ⟨"never", ?_, fun _ => ⟨rfl, rfl⟩⟩
    simp only [recallHost, unknown]

theorem template_generate_items :
    let p : Pattern Tree String String :=
      .contents [.capture "x", .or (.template "y") (.window [.template "x"])]
    let q : Pattern Tree String String :=
      .contents [.capture "x", .or (.generate "y") (.window [.generate "x"])]
    let datum : Tree := .list [.int 1, .list [.int 1, .int 2]]
    (∀ a b : Tree, (a == b) = (b == a)) ∧
      p.Varies (Pattern.RecalledBy recallHost fun _ => false) q ∧
      ({} : MatchConfig).strictTemplates = false ∧
      Enumerator.Agree recallHost (fun _ => false) (fun branch branch' => branch = branch')
        (findWith datum p {}) (findWith datum q {}) ∧
      ∃ replies, (findWith datum q {}).advances recallHost 40 2 = some replies ∧
        replies.map Reply.answer = [.ok (some ⟨[("x", .int 1)]⟩), .ok none] := by
  intro p q datum
  have exchanged (name : String) : Pattern.Varies (Pattern.RecalledBy recallHost fun _ => false)
      (.template name) (.generate name) := .exchange ⟨name, name, rfl, rfl, recallHost_recalls name⟩
  have inWindow : Pattern.Varies (Pattern.RecalledBy recallHost fun _ => false)
      (.window [.template "x"]) (.window [.generate "x"]) :=
    .window rfl (List.forall_mem_cons.mpr ⟨exchanged "x", nofun⟩)
  have varies : p.Varies (Pattern.RecalledBy recallHost fun _ => false) q := by
    refine .contents rfl (List.forall_mem_cons.mpr ⟨.refl _, List.forall_mem_cons.mpr ⟨?_, nofun⟩⟩)
    exact .or (exchanged "y") inWindow
  refine ⟨Tree.beq_comm, varies, rfl, ?_, _, rfl, rfl⟩
  exact template_generate recallHost (fun _ => false) Tree.beq_comm varies datum {} rfl

end TreeQuery
