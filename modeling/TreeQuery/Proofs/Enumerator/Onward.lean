import TreeQuery.Proofs.Enumerator.Captures
import TreeQuery.Tree

/-! What follows a branch of a search until a branch is resumed that was saved before. All that
shows in the meantime goes on from the bindings of the branch. -/

namespace TreeQuery

variable {D K H : Type}

mutual

def Choice.saved : Choice D K H → List (Frame D K H)
  | .resume frame => [frame]
  | .tail _ nested => Enumerator.saved nested

def Choice.allSaved : List (Choice D K H) → List (Frame D K H)
  | [] => []
  | choice :: choices => Choice.saved choice ++ Choice.allSaved choices

def Enumerator.saved : Enumerator D K H → List (Frame D K H)
  | ⟨_, _, _, _, frame, choices, progress⟩ =>
    (if progress = .searching then [frame] else []) ++ Choice.allSaved choices

end

theorem Enumerator.saved_eq (e : Enumerator D K H) :
    e.saved = (if e.progress = .searching then [e.frame] else []) ++ Choice.allSaved e.choices := by
  rcases e with ⟨root, pattern, seed, config, frame, choices, progress⟩
  rw [saved]

theorem Choice.allSaved_resume (frames : List (Frame D K H)) (choices : List (Choice D K H)) :
    Choice.allSaved (frames.map .resume ++ choices) = frames ++ Choice.allSaved choices := by
  induction frames with
  | nil => rfl
  | cons frame frames ih =>
      rw [List.map_cons, List.cons_append, Choice.allSaved, Choice.saved, ih]
      rfl

mutual

theorem Choice.Extends.saved {captures : Env D} :
    ∀ {choice : Choice D K H}, choice.Extends captures →
      ∀ frame ∈ choice.saved, captures.Begins frame.captures
  | .resume _, begins, frame, member => by
      simp only [Choice.Extends] at begins
      rw [Choice.saved, List.mem_singleton] at member
      rwa [member]
  | .tail _ nested, begins, frame, member => by
      simp only [Choice.Extends] at begins
      rw [Choice.saved] at member
      exact begins.1.trans (Enumerator.Rooted.saved begins.2 frame member)

theorem Choice.AllExtend.saved {captures : Env D} :
    ∀ {choices : List (Choice D K H)}, Choice.AllExtend captures choices →
      ∀ frame ∈ Choice.allSaved choices, captures.Begins frame.captures
  | [], _, _, member => by
      rw [Choice.allSaved] at member
      cases member
  | choice :: choices, begins, frame, member => by
      rw [Choice.AllExtend] at begins
      rw [Choice.allSaved] at member
      rcases List.mem_append.mp member with own | other
      · exact Choice.Extends.saved begins.1 frame own
      · exact Choice.AllExtend.saved begins.2 frame other

theorem Enumerator.Rooted.saved :
    ∀ {e : Enumerator D K H}, e.Rooted → ∀ frame ∈ e.saved, e.seed.Begins frame.captures
  | ⟨_, _, _, _, _, _, _⟩, rooted, frame, member => by
      rw [Enumerator.Rooted] at rooted
      rw [Enumerator.saved] at member
      rcases List.mem_append.mp member with live | other
      · split at live
        · rw [List.mem_singleton.mp live]
          exact rooted.1
        · cases live
      · exact Choice.AllExtend.saved rooted.2 frame other

end

namespace Machine

def under (m : Machine D K H) (waiting : List (Waiting D K H)) : Machine D K H :=
  { m with waiting := m.waiting ++ waiting }

/-- The bindings of the live branch of the outermost enumeration, which explores the branch or waits
for the first solution of a step of a path that the branch has come to. An enumeration that goes
back to a choice point has no live branch. -/
def live? (m : Machine D K H) : Option (Env D) :=
  match m.waiting.getLast? with
  | none => if m.phase = .working then some m.active.frame.captures else none
  | some w => if w.origin = .first then some w.outer.frame.captures else none

def saved (m : Machine D K H) : List (Frame D K H) :=
  Choice.allSaved m.active.choices ++ m.waiting.flatMap fun w => Choice.allSaved w.outer.choices

def savedBelow (m : Machine D K H) (outer : List (Waiting D K H)) : List (Frame D K H) :=
  saved ⟨m.outermost, m.phase, outer⟩

/-- Apart from the saved branches `base`, all that is left to be explored goes on from the given
bindings. -/
structure Keeps (captures : Env D) (base : List (Frame D K H)) (m : Machine D K H) : Prop where
  live : m.phase = .working → captures.Begins m.active.frame.captures
  stack : ∃ top, m.saved = top ++ base ∧ ∀ frame ∈ top, captures.Begins frame.captures

theorem Rooted.saved {m : Machine D K H} (rooted : m.Rooted) :
    ∀ frame ∈ m.saved, m.outermost.seed.Begins frame.captures := by
  rcases m with ⟨e, phase, waiting⟩
  have own : ∀ frame ∈ Choice.allSaved e.choices, e.seed.Begins frame.captures :=
    (Choice.allExtend_iff.mpr (Enumerator.rooted_iff.mp rooted.active).2).saved
  induction waiting generalizing e phase with
  | nil =>
      intro frame member
      rw [Machine.saved, List.flatMap_nil, List.append_nil] at member
      exact own frame member
  | cons w waiting ih =>
      rcases rooted.linked with ⟨outer, seed, _, linked⟩
      have around : Rooted ⟨w.outer, .working, waiting⟩ := ⟨outer, linked⟩
      intro frame member
      rw [outermost_cons e phase .working]
      rcases List.mem_append.mp member with inner | other
      · exact around.outermost.2.trans (seed.trans (own frame inner))
      · exact ih w.outer .working around
          (Choice.allExtend_iff.mpr (Enumerator.rooted_iff.mp outer).2).saved frame other

theorem Rooted.of_under {m : Machine D K H} {outer : List (Waiting D K H)}
    (rooted : (m.under outer).Rooted) :
    m.Rooted ∧ ∀ w rest, outer = w :: rest → w.origin = .first →
      m.outermost.seed = w.outer.frame.captures := by
  rcases m with ⟨e, phase, waiting⟩
  induction waiting generalizing e phase with
  | nil =>
      refine ⟨⟨rooted.active, trivial⟩, ?_⟩
      rintro w rest rfl first
      exact rooted.linked.2.2.1 first
  | cons w waiting ih =>
      rcases rooted.linked with ⟨outer, seed, begins, linked⟩
      rcases ih w.outer .working ⟨outer, linked⟩ with ⟨inner, first⟩
      rw [outermost_cons e phase .working]
      exact ⟨⟨rooted.active, outer, seed, begins, inner.linked⟩, first⟩

theorem Rooted.keeps {m : Machine D K H} {outer : List (Waiting D K H)}
    (rooted : (m.under outer).Rooted) {captures : Env D} (live : m.live? = some captures) :
    Keeps captures (m.savedBelow outer) (m.under outer) := by
  rcases m with ⟨e, phase, waiting⟩
  rcases List.eq_nil_or_concat waiting with rfl | ⟨inner, w, rfl⟩
  · simp only [live?, List.getLast?_nil] at live
    split at live
    · cases live
      exact ⟨fun _ => .refl _, [], rfl, fun _ member => absurd member List.not_mem_nil⟩
    · cases live
  · rw [List.concat_eq_append] at live rooted ⊢
    simp only [live?, List.getLast?_concat] at live
    split at live
    · rename_i first
      cases live
      -- The branch waits for a step of its path, so all that is saved inside began with its bindings.
      have whole : under ⟨e, phase, inner ++ [w]⟩ outer = under ⟨e, phase, inner⟩ (w :: outer) := by
        simp only [under, List.append_assoc, List.singleton_append]
      rw [whole] at rooted ⊢
      rcases rooted.of_under with ⟨own, begins⟩
      have seed := begins w outer rfl first
      refine ⟨fun _ => seed ▸ own.live, Machine.saved ⟨e, phase, inner⟩, ?_, fun frame member => ?_⟩
      · simp only [Machine.saved, savedBelow, under, Machine.outermost, List.getLast?_concat,
          List.flatMap_append, List.flatMap_cons, List.append_assoc]
        rfl
      · exact seed ▸ own.saved frame member
    · cases live

theorem Keeps.front {captures : Env D} {base front rest : List (Frame D K H)} {m : Machine D K H}
    (keeps : Keeps captures base m) (whole : m.saved = front ++ rest) (kept : base <:+ rest) :
    (∀ frame ∈ front, captures.Begins frame.captures) ∧
      ∃ top, rest = top ++ base ∧ ∀ frame ∈ top, captures.Begins frame.captures := by
  rcases keeps.stack with ⟨top, stack, each⟩
  rcases kept with ⟨others, rfl⟩
  have same : front ++ others = top := by
    rw [whole, ← List.append_assoc] at stack
    exact List.append_cancel_right stack
  rw [← same] at each
  exact ⟨fun frame member => each frame (List.mem_append_left _ member), others, rfl,
    fun frame member => each frame (List.mem_append_right _ member)⟩

theorem Keeps.begins {captures : Env D} {m : Machine D K H} (keeps : Keeps captures [] m) :
    ∀ frame ∈ m.saved, captures.Begins frame.captures := by
  rcases keeps.stack with ⟨top, stack, each⟩
  rw [stack, List.append_nil]
  exact each

theorem mem_saved_of_outermost {m : Machine D K H} {frame : Frame D K H}
    (member : frame ∈ Choice.allSaved m.outermost.choices) : frame ∈ m.saved := by
  rcases m with ⟨e, phase, waiting⟩
  induction waiting generalizing e phase with
  | nil => exact List.mem_append_left _ member
  | cons w waiting ih =>
      rw [outermost_cons e phase .working] at member
      exact List.mem_append_right _ (ih w.outer .working member)

theorem saved_branch (e : Enumerator D K H) (live : Frame D K H) (others : List (Frame D K H))
    (phase : Phase) (waiting : List (Waiting D K H)) :
    saved ⟨e.branch live others, phase, waiting⟩ = others ++ saved ⟨e, phase, waiting⟩ := by
  simp only [saved, Enumerator.branch, Choice.allSaved_resume, List.append_assoc]

theorem Keeps.branch {captures : Env D} {base : List (Frame D K H)} {e : Enumerator D K H}
    {phase phase' : Phase} {waiting : List (Waiting D K H)}
    (keeps : Keeps captures base ⟨e, phase, waiting⟩) {live : Frame D K H}
    {others : List (Frame D K H)}
    (frames : ∀ frame ∈ live :: others, captures.Begins frame.captures) :
    Keeps captures base ⟨e.branch live others, phase', waiting⟩ := by
  rcases keeps.stack with ⟨top, stack, each⟩
  refine ⟨fun _ => frames live List.mem_cons_self, others ++ top, ?_, fun frame member => ?_⟩
  · calc saved ⟨e.branch live others, phase', waiting⟩
        = others ++ saved ⟨e, phase, waiting⟩ := saved_branch e live others phase' waiting
      _ = (others ++ top) ++ base := by rw [stack, List.append_assoc]
  · rcases List.mem_append.mp member with new | old
    · exact frames frame (.tail _ new)
    · exact each frame old

theorem Keeps.adopt {captures : Env D} {base : List (Frame D K H)} {e : Enumerator D K H}
    {w : Waiting D K H} {waiting : List (Waiting D K H)}
    (keeps : Keeps captures base ⟨e, .working, w :: waiting⟩) :
    Keeps captures base ⟨(w.outer.adopt w.leg e.yield).2, .working, waiting⟩ := by
  have tail : Keeps captures base
      ⟨{ w.outer with choices := .tail w.leg e.yield :: w.outer.choices }, .spent, waiting⟩ := by
    refine ⟨nofun, ?_⟩
    have same : saved ⟨{ w.outer with choices := .tail w.leg e.yield :: w.outer.choices }, .spent,
        waiting⟩ = saved ⟨e, .working, w :: waiting⟩ := by
      simp only [saved, Choice.allSaved, Choice.saved, Enumerator.yield, Enumerator.saved,
        reduceCtorEq, if_false, List.nil_append, List.flatMap_cons, List.append_assoc]
    rw [same]
    exact keeps.stack
  refine tail.branch fun frame member => ?_
  rw [Leg.captures_exits _ _ _ frame member]
  exact keeps.live rfl

theorem Keeps.ended {captures : Env D} {m : Machine D K H} {e : Enumerator D K H}
    (keeps : Keeps captures [] m) (idle : e.progress ≠ .searching)
    (each : ∀ frame ∈ Choice.allSaved e.choices, frame ∈ m.saved) :
    Keeps captures [] (.ask e []) := by
  have resting : (ask e []).phase ≠ .working := by
    intro working
    change Phase.ofProgress e.progress = .working at working
    cases progress : e.progress with
    | searching => exact absurd progress idle
    | yielded | exhausted =>
        rw [progress] at working
        cases working
  refine ⟨fun working => absurd working resting, Choice.allSaved e.choices, rfl, ?_⟩
  exact fun frame member => keeps.begins frame (each frame member)

variable [TreeLike D K] [BEq D] [BEq K] {host : Host D K H}

theorem Step.generate {m : Machine D K H} {events : List (Event D K H)} {turn : Turn D K H}
    (step : Step host m events turn) {handle : H} {env : Env D}
    (called : .generate handle env ∈ Event.calls events) :
    m.phase = .working ∧ env = m.active.frame.captures := by
  have performs {e : Enumerator D K H} {work : List (Task D K H)} {calls : List (Event D K H)}
      {outcome : Outcome D K H} (turns : Turns host e work calls outcome)
      (called : .generate handle env ∈ Event.calls calls) : env = e.frame.captures := by
    rcases turns with ⟨task, _, performed⟩
    have own : .generate handle env ∈
        Event.calls ((e.drop work).frame.perform host e.config task).1 := by
      rw [performed]
      exact called
    have same : env = (e.drop work).frame.captures := Frame.generate_perform own
    exact same
  cases step with
  | proceed turns =>
      rw [Event.calls_append, Event.calls_branchNotes, List.append_nil] at called
      exact ⟨rfl, performs turns called⟩
  | fail turns => exact ⟨rfl, performs turns called⟩
  | abort turns => exact ⟨rfl, performs turns called⟩
  | descend turns =>
      rw [Event.calls_append, Event.calls_note, List.append_nil] at called
      exact ⟨rfl, performs turns called⟩
  | solved ready =>
      rw [Event.calls_note] at called
      cases called
  | dangling ready dangles =>
      rw [Event.calls_note] at called
      cases called
  | adopt ready leads =>
      rw [Event.calls_append, Event.calls_note, calls_adopt] at called
      cases called
  | resume latest =>
      rw [Event.calls_note] at called
      cases called
  | reopen latest =>
      rw [Event.calls_note] at called
      cases called
  | exhausted idle =>
      rw [calls_closing] at called
      cases called
  | barren idle =>
      rw [Event.calls_append, calls_closing, calls_giveUp] at called
      cases called

/-- As long as the saved branches `base` stay, a step leads to nothing but what goes on from the
bindings. -/
theorem Keeps.step {captures : Env D} {base : List (Frame D K H)} {m m' : Machine D K H}
    {events : List (Event D K H)} (keeps : Keeps captures base m)
    (step : Step host m events (.next m')) (kept : base <:+ m'.saved) :
    Keeps captures base m' := by
  cases step with
  | proceed turns =>
      exact keeps.branch fun frame member => (keeps.live rfl).trans (turns.extends frame member)
  | fail turns => exact ⟨nofun, keeps.stack⟩
  | descend turns => exact ⟨fun _ => keeps.live rfl, keeps.stack⟩
  | adopt ready leads => exact keeps.adopt
  | @resume e waiting announce frame choices latest =>
      have whole : saved ⟨e, .retreating announce, waiting⟩ =
          [frame] ++ saved ⟨{ e with frame, choices }, .working, waiting⟩ := by
        simp only [saved, latest, Choice.allSaved, Choice.saved, List.append_assoc]
      rcases keeps.front whole kept with ⟨resumed, stack⟩
      exact ⟨fun _ => resumed frame List.mem_cons_self, stack⟩
  | @reopen e waiting announce leg nested choices latest =>
      have whole : saved ⟨e, .retreating announce, waiting⟩ =
          (if nested.progress = .searching then [nested.frame] else []) ++
            saved (.ask nested (⟨e.pop choices, leg, .again announce⟩ :: waiting)) := by
        simp only [saved, ask, latest, Choice.allSaved, Choice.saved, Enumerator.saved_eq,
          Enumerator.pop, List.flatMap_cons, List.append_assoc]
      rcases keeps.front whole kept with ⟨reopened, stack⟩
      refine ⟨fun working => ?_, stack⟩
      -- The enumeration of a step that has not begun yet is itself a branch that was saved.
      have searching : nested.progress = .searching := by
        revert working
        simp only [ask]
        cases nested.progress <;> simp [Phase.ofProgress]
      rw [if_pos searching] at reopened
      exact reopened _ List.mem_cons_self
  | @barren e phase w waiting idle =>
      have whole : saved ⟨e, phase, w :: waiting⟩ = Choice.allSaved e.choices ++
          saved ⟨w.outer, .retreating (Origin.giveUp w w.origin).2, waiting⟩ := by
        simp only [saved, List.flatMap_cons]
      exact ⟨nofun, (keeps.front whole kept).2⟩

theorem Keeps.halt {captures : Env D} {m : Machine D K H} {events : List (Event D K H)}
    {answer : Except MatchError Bool} {e : Enumerator D K H} (keeps : Keeps captures [] m)
    (step : Step host m events (.halt answer e)) : Keeps captures [] (.ask e []) := by
  cases step with
  | @abort e waiting work calls error turns =>
      exact keeps.ended nofun fun frame member =>
        mem_saved_of_outermost (m := ⟨e.drop work, .working, waiting⟩) member
  | solved ready => exact keeps.ended nofun fun frame => List.mem_append_left _
  | dangling ready dangles => exact keeps.adopt.ended nofun fun frame => mem_saved_of_outermost
  | exhausted idle => exact keeps.ended nofun fun frame => List.mem_append_left _

/-- What a search does from a state on before one of the saved branches `base` is resumed, with the
calls on the way and the solutions that it finds. After a solution it may be asked for the next one.
-/
inductive Onward (host : Host D K H) (base : List (Frame D K H)) (m : Machine D K H) :
    List (Call D H) → List (Env D) → Machine D K H → Prop where
  | here : Onward host base m [] [] m
  | step {calls : List (Call D H)} {solutions : List (Env D)} {m' m'' : Machine D K H}
      {events : List (Event D K H)} (before : Onward host base m calls solutions m')
      (now : m'.step host = (events, .next m'')) (kept : base <:+ m''.saved) :
      Onward host base m (calls ++ Event.calls events) solutions m''
  | solved {calls : List (Call D H)} {solutions : List (Env D)} {m' : Machine D K H}
      {events : List (Event D K H)} {e : Enumerator D K H}
      (before : Onward host base m calls solutions m')
      (now : m'.step host = (events, .halt (.ok true) e)) :
      Onward host base m (calls ++ Event.calls events) (solutions ++ [e.frame.captures]) (.ask e [])

inductive Shows (calls : List (Call D H)) (solutions : List (Env D)) (m : Machine D K H) :
    Env D → Prop where
  | called {handle : H} {env : Env D} (member : .generate handle env ∈ calls) :
      Shows calls solutions m env
  | solution {env : Env D} (member : env ∈ solutions) : Shows calls solutions m env
  | explored (working : m.phase = .working) : Shows calls solutions m m.active.frame.captures

theorem Onward.keeps {captures : Env D} {base : List (Frame D K H)} {m m' : Machine D K H}
    {calls : List (Call D H)} {solutions : List (Env D)}
    (onward : Onward host base m calls solutions m') (begins : Keeps captures base m) :
    Keeps captures base m' ∧
      (∀ handle env, .generate handle env ∈ calls → captures.Begins env) ∧
      ∀ env ∈ solutions, captures.Begins env := by
  have generated {m : Machine D K H} {events : List (Event D K H)} {turn : Turn D K H}
      {calls : List (Call D H)} (keeps : Keeps captures base m) (step : Step host m events turn)
      (called : ∀ handle env, .generate handle env ∈ calls → captures.Begins env) :
      ∀ handle env, .generate handle env ∈ calls ++ Event.calls events → captures.Begins env := by
    intro handle env member
    rcases List.mem_append.mp member with old | new
    · exact called handle env old
    · rcases step.generate new with ⟨working, rfl⟩
      exact keeps.live working
  induction onward with
  | here =>
      exact ⟨begins, fun _ _ member => absurd member List.not_mem_nil,
        fun _ member => absurd member List.not_mem_nil⟩
  | step before now kept ih =>
      rcases ih with ⟨keeps, called, solved⟩
      exact ⟨keeps.step (step_of_eq now) kept, generated keeps (step_of_eq now) called, solved⟩
  | solved before now ih =>
      rcases ih with ⟨keeps, called, solved⟩
      have called := generated keeps (step_of_eq now) called
      cases step_of_eq now with
      | solved ready =>
          refine ⟨⟨nofun, keeps.stack⟩, called, fun env member => ?_⟩
          rcases List.mem_append.mp member with old | new
          · exact solved env old
          · rw [List.mem_singleton.mp new]
            exact keeps.live rfl

end Machine

/-- In every state of a search, every branch of every enumeration, live or saved, goes on from the
seed of the enumeration. Where an enumeration has a live branch, alone or inside others, all
bindings that show before a branch is resumed that this enumeration or one around it has saved go on
from the bindings of the live branch, also where it leaves the paths that it is in. So a name that
the branch has bound keeps its value. -/
theorem captures_begin_onward [TreeLike D K] [BEq D] [BEq K] (host : Host D K H) (datum : D)
    (pattern : Pattern D K H) (config : MatchConfig) {m : Machine D K H}
    (reachable : Machine.Reachable host (findWith datum pattern config) m) :
    m.Rooted ∧
      ∀ (own : Machine D K H) (outer : List (Waiting D K H)) (captures : Env D),
        m = own.under outer → own.live? = some captures →
        ∀ calls solutions m', Machine.Onward host (own.savedBelow outer) m calls solutions m' →
          ∀ env, Machine.Shows calls solutions m' env →
            captures.Begins env ∧
              ∀ name value, captures.get? name = some value → env.get? name = some value := by
  have rooted := reachable.rooted (Enumerator.rooted_seeded datum pattern .empty config)
  refine ⟨rooted, ?_⟩
  rintro own outer captures rfl live calls solutions m' onward env shown
  rcases onward.keeps (rooted.keeps live) with ⟨keeps, called, solved⟩
  have begins : captures.Begins env := by
    cases shown with
    | called member => exact called _ env member
    | solution member => exact solved env member
    | explored working => exact keeps.live working
  exact ⟨begins, fun name value => begins.get?⟩

def captureAgain : Pattern Tree String Unit :=
  .contents [.capture "x", .and (.path [.or .mark .wild, .capture "x"]) (.generate ())]

def boundOnce : Machine Tree String Unit :=
  let path := .and (.path [.or .mark .wild, .capture "x"]) (.generate ())
  ⟨⟨.list [.int 1, .int 2], captureAgain, .empty, {},
    ⟨⟨[("x", .int 1)]⟩, [.ofPattern (.int 2) path], []⟩, [], .searching⟩, .working, []⟩

theorem captures_begin_onward_captureAgain :
    let host : Host Tree String Unit := ⟨fun _ _ => .ok true, fun _ _ => .ok .wild⟩
    Machine.Reachable host (findWith (.list [.int 1, .int 2]) captureAgain {}) boundOnce ∧
      boundOnce.live? = some ⟨[("x", .int 1)]⟩ ∧
      ∃ m calls env, Machine.Onward host [] boundOnce calls [] m ∧ .generate () env ∈ calls ∧
        env.names = ["x", "x"] ∧ env.get? "x" = some (.int 1) := by
  intro host
  have reachable : Machine.Reachable host (findWith (.list [.int 1, .int 2]) captureAgain {})
      boundOnce := .next (.next .start rfl) rfl
  have onward : Machine.Onward host [] boundOnce [] [] boundOnce := .here
  iterate 9
    replace onward := onward.step rfl List.nil_suffix
  have called : ∃ m calls env, Machine.Onward host [] boundOnce calls [] m ∧
      .generate () env ∈ calls ∧ env.names = ["x", "x"] :=
    ⟨_, _, ⟨[("x", .int 1), ("x", .int 2)]⟩, onward,
      List.mem_append_right _ List.mem_cons_self, rfl⟩
  rcases called with ⟨m, calls, env, onward, call, names⟩
  have law := (captures_begin_onward host (.list [.int 1, .int 2]) captureAgain {} reachable).2
  have kept := (law boundOnce [] _ rfl rfl calls [] m onward env (.called call)).2
  exact ⟨reachable, rfl, m, calls, env, onward, call, names, kept "x" (.int 1) rfl⟩

end TreeQuery
