import TreeQuery.Proofs.Enumerator.Run

/-! Searches that differ only in their options. The options are the same in all enumerations of a
search, and a search with weaker options goes the same way as the stricter one up to the point where
the stricter one raises an error. -/

namespace TreeQuery

namespace MatchConfig

def clear (config : MatchConfig) (templates paths : Bool) : MatchConfig :=
  { config with
    strictTemplates := config.strictTemplates && !templates
    strictPaths := config.strictPaths && !paths }

/-- The lenient options make an error of nothing that the strict ones allow. -/
structure Relaxes (lenient strict : MatchConfig) : Prop where
  templates : lenient.strictTemplates = true → strict.strictTemplates = true
  paths : lenient.strictPaths = true → strict.strictPaths = true

theorem clear_relaxes (config : MatchConfig) (templates paths : Bool) :
    (config.clear templates paths).Relaxes config :=
  ⟨fun strict => (Bool.and_eq_true_iff.mp strict).1, fun strict => (Bool.and_eq_true_iff.mp strict).1⟩

theorem Relaxes.refl (config : MatchConfig) : config.Relaxes config := ⟨id, id⟩

end MatchConfig

variable {D K H : Type}

mutual

def Choice.withConfig (config : MatchConfig) : Choice D K H → Choice D K H
  | .resume frame => .resume frame
  | .tail leg nested => .tail leg (Enumerator.withConfig config nested)

def Choice.allWithConfig (config : MatchConfig) : List (Choice D K H) → List (Choice D K H)
  | [] => []
  | choice :: choices => Choice.withConfig config choice :: Choice.allWithConfig config choices

def Enumerator.withConfig (config : MatchConfig) : Enumerator D K H → Enumerator D K H
  | ⟨root, pattern, seed, _, frame, choices, progress⟩ =>
    ⟨root, pattern, seed, config, frame, Choice.allWithConfig config choices, progress⟩

end

def Waiting.withConfig (config : MatchConfig) (w : Waiting D K H) : Waiting D K H :=
  { w with outer := w.outer.withConfig config }

def Machine.withConfig (config : MatchConfig) (m : Machine D K H) : Machine D K H :=
  ⟨m.active.withConfig config, m.phase, m.waiting.map (Waiting.withConfig config)⟩

def Turn.withConfig (config : MatchConfig) : Turn D K H → Turn D K H
  | .next m => .next (m.withConfig config)
  | .halt answer e => .halt answer (e.withConfig config)

theorem Choice.allWithConfig_eq_map (config : MatchConfig) (choices : List (Choice D K H)) :
    Choice.allWithConfig config choices = choices.map (Choice.withConfig config) := by
  induction choices with
  | nil => rfl
  | cons choice choices ih => rw [Choice.allWithConfig, ih, List.map_cons]

namespace Enumerator

theorem withConfig_eq (config : MatchConfig) (e : Enumerator D K H) :
    e.withConfig config =
      { e with config, choices := e.choices.map (Choice.withConfig config) } := by
  rcases e with ⟨root, pattern, seed, own, frame, choices, progress⟩
  rw [withConfig, Choice.allWithConfig_eq_map]

theorem config_withConfig (config : MatchConfig) (e : Enumerator D K H) :
    (e.withConfig config).config = config := by
  rw [withConfig_eq]

theorem frame_withConfig (config : MatchConfig) (e : Enumerator D K H) :
    (e.withConfig config).frame = e.frame := by
  rw [withConfig_eq]

theorem choices_withConfig (config : MatchConfig) (e : Enumerator D K H) :
    (e.withConfig config).choices = e.choices.map (Choice.withConfig config) := by
  rw [withConfig_eq]

theorem withConfig_seeded (config own : MatchConfig) (root : D) (pattern : Pattern D K H)
    (seed : Env D) :
    (seeded root pattern seed own).withConfig config = seeded root pattern seed config := by
  rw [withConfig_eq]
  rfl

theorem withConfig_reset (config : MatchConfig) (e : Enumerator D K H) :
    (e.withConfig config).reset = e.reset.withConfig config := by
  simp only [withConfig_eq, reset, List.map_nil]

theorem withConfig_branch (config : MatchConfig) (e : Enumerator D K H) (live : Frame D K H)
    (others : List (Frame D K H)) :
    (e.branch live others).withConfig config = (e.withConfig config).branch live others := by
  have resumed : (others.map Choice.resume).map (Choice.withConfig config) =
      (others.map .resume : List (Choice D K H)) := by
    rw [List.map_map]
    exact List.map_congr_left fun frame _ => by simp only [Function.comp_apply, Choice.withConfig]
  simp only [withConfig_eq, branch, List.map_append, resumed]

theorem withConfig_drop (config : MatchConfig) (e : Enumerator D K H) (work : List (Task D K H)) :
    (e.drop work).withConfig config = (e.withConfig config).drop work := by
  simp only [withConfig_eq, drop]

theorem withConfig_yield (config : MatchConfig) (e : Enumerator D K H) :
    e.yield.withConfig config = (e.withConfig config).yield := by
  simp only [withConfig_eq, yield]

theorem withConfig_finish (config : MatchConfig) (e : Enumerator D K H) :
    e.finish.withConfig config = (e.withConfig config).finish := by
  simp only [withConfig_eq, finish]

theorem withConfig_pop (config : MatchConfig) (e : Enumerator D K H)
    (choices : List (Choice D K H)) :
    (e.pop choices).withConfig config =
      (e.withConfig config).pop (choices.map (Choice.withConfig config)) := by
  simp only [withConfig_eq, pop]

theorem withConfig_adopt (config : MatchConfig) (e nested : Enumerator D K H) (leg : Leg D K H) :
    (e.adopt leg nested).2.withConfig config =
      ((e.withConfig config).adopt leg (nested.withConfig config)).2 := by
  simp only [adopt, withConfig_branch]
  rw [withConfig_eq, withConfig_eq config nested, withConfig_eq config e]
  simp only [List.map_cons, Choice.withConfig]
  rw [withConfig_eq config nested]

end Enumerator

theorem Waiting.dangling?_withConfig (config : MatchConfig) (w : Waiting D K H)
    (e : Enumerator D K H) :
    (w.withConfig config).leg.dangling? (w.withConfig config).outer.config
        (e.withConfig config).frame.marks = w.leg.dangling? config e.frame.marks := by
  rw [withConfig, Enumerator.config_withConfig, Enumerator.frame_withConfig]

namespace Machine

theorem withConfig_mk (config : MatchConfig) (e : Enumerator D K H) (phase : Phase)
    (waiting : List (Waiting D K H)) :
    withConfig config ⟨e, phase, waiting⟩ =
      ⟨e.withConfig config, phase, waiting.map (Waiting.withConfig config)⟩ := rfl

theorem withConfig_ask (config : MatchConfig) (e : Enumerator D K H)
    (waiting : List (Waiting D K H)) :
    (ask e waiting).withConfig config =
      ask (e.withConfig config) (waiting.map (Waiting.withConfig config)) := by
  simp only [ask, withConfig, Enumerator.withConfig_eq]

theorem withConfig_ask_nil (config : MatchConfig) (e : Enumerator D K H) :
    (ask e []).withConfig config = ask (e.withConfig config) [] := withConfig_ask config e []

theorem uniform_ask {config : MatchConfig} {e : Enumerator D K H}
    (uniform : e.withConfig config = e) : (ask e []).withConfig config = ask e [] := by
  rw [withConfig_ask_nil, uniform]

theorem outermost_withConfig (config : MatchConfig) (m : Machine D K H) :
    (m.withConfig config).outermost = m.outermost.withConfig config := by
  rcases m with ⟨e, phase, waiting⟩
  simp only [outermost, withConfig, List.getLast?_map, Option.map_map]
  cases waiting.getLast? <;> rfl

theorem config_active {config : MatchConfig} {m : Machine D K H}
    (uniform : m.withConfig config = m) : m.active.config = config := by
  have same := congrArg (·.active.config) uniform
  simp only [withConfig, Enumerator.config_withConfig] at same
  exact same.symm

theorem config_outer {config : MatchConfig} {e : Enumerator D K H} {phase : Phase}
    {w : Waiting D K H} {waiting : List (Waiting D K H)}
    (uniform : withConfig config ⟨e, phase, w :: waiting⟩ = ⟨e, phase, w :: waiting⟩) :
    w.outer.config = config := by
  have same := congrArg (·.waiting.head?.map (·.outer.config)) uniform
  simp only [withConfig, List.map_cons, List.head?_cons, Option.map_some, Waiting.withConfig,
    Enumerator.config_withConfig, Option.some.injEq] at same
  exact same.symm

theorem Idle.withConfig {m : Machine D K H} (idle : m.Idle) (config : MatchConfig) :
    (m.withConfig config).Idle := by
  rcases idle with spent | ⟨announce, retreating, bottom⟩
  · exact .inl spent
  · refine .inr ⟨announce, retreating, ?_⟩
    rw [Machine.withConfig, Enumerator.choices_withConfig, bottom, List.map_nil]

end Machine

variable [TreeLike D K] [BEq D] [BEq K]

namespace Frame

theorem perform_withConfig (host : Host D K H) (frame : Frame D K H) (task : Task D K H)
    (config config' : MatchConfig) :
    frame.perform host config' task = frame.perform host config task ∨
      ∃ datum name, task = ⟨datum, .pattern (.template name)⟩ ∧
        frame.captures.get? name = none := by
  rcases task with ⟨datum, goal⟩
  cases goal with
  | path steps step => exact .inl rfl
  | pattern pattern =>
      cases pattern with
      | template name =>
          cases bound : frame.captures.get? name with
          | none => exact .inr ⟨datum, name, rfl, bound⟩
          | some value =>
              left
              simp only [perform, apply, bound]
      | _ => exact .inl rfl

theorem perform_unbound (host : Host D K H) {frame : Frame D K H} {name : String}
    (unbound : frame.captures.get? name = none) (config : MatchConfig) (datum : D) :
    frame.perform host config ⟨datum, .pattern (.template name)⟩ =
      ([], if config.strictTemplates then .abort (.unboundTemplate name) else .fail) := by
  simp only [perform, apply, calls, unbound]

end Frame

end TreeQuery
