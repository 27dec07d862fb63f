import TreeQuery.Proofs.Enumerator.Delivery

/-! Choice points below those of an enumeration. As long as the enumeration gives solutions of its own, what
lies below has no part in them and stays as it is; then the search goes back to it. -/

namespace TreeQuery

variable {D K H : Type}

namespace Enumerator

def above (e : Enumerator D K H) (base : List (Choice D K H)) : Enumerator D K H :=
  { e with choices := e.choices ++ base }

def backTo (e : Enumerator D K H) (base : List (Choice D K H)) : Enumerator D K H :=
  { e with choices := base, progress := .yielded }

def exploring (e : Enumerator D K H) (frame : Frame D K H) (choices : List (Choice D K H)) :
    Enumerator D K H :=
  { e with frame, choices, progress := .searching }

theorem above_nil (e : Enumerator D K H) : e.above [] = e := by
  rcases e with ⟨root, pattern, seed, config, frame, choices, progress⟩
  simp only [above, List.append_nil]

/-- The second enumeration is the first one above `base`. How far each has come with its last request
does not matter, since that is read only when the next request begins. -/
def Framed (base : List (Choice D K H)) (e e' : Enumerator D K H) : Prop :=
  ∃ progress, e' = { e.above base with progress }

end Enumerator

inductive Phase.Same : Phase → Phase → Prop where
  | working : Same .working .working
  | retreating (announce announce' : Bool) : Same (.retreating announce) (.retreating announce')
  | spent : Same .spent .spent

inductive Origin.Same : Origin → Origin → Prop where
  | first : Same .first .first
  | again (announce announce' : Bool) : Same (.again announce) (.again announce')

/-- What lies below the choice points of an enumeration for which others wait: `base` if there are none,
for then it is the outermost. -/
def Waiting.floor (base : List (Choice D K H)) : List (Waiting D K H) → List (Choice D K H)
  | [] => base
  | _ :: _ => []

inductive Waiting.Framed (base : List (Choice D K H)) :
    List (Waiting D K H) → List (Waiting D K H) → Prop where
  | nil : Framed base [] []
  | cons {outer outer' : Enumerator D K H} {leg : Leg D K H} {origin origin' : Origin}
      {waiting waiting' : List (Waiting D K H)} (outside : outer.Framed (floor base waiting) outer')
      (same : origin.Same origin') (rest : Framed base waiting waiting') :
      Framed base (⟨outer, leg, origin⟩ :: waiting) (⟨outer', leg, origin'⟩ :: waiting')

structure Machine.Framed (base : List (Choice D K H)) (m m' : Machine D K H) : Prop where
  active : m.active.Framed (Waiting.floor base m.waiting) m'.active
  phase : m.phase.Same m'.phase
  waiting : Waiting.Framed base m.waiting m'.waiting

inductive Turn.Framed (base : List (Choice D K H)) : Turn D K H → Turn D K H → Prop where
  | next {m m' : Machine D K H} (framed : m.Framed base m') : Framed base (.next m) (.next m')
  | halt (answer : Except MatchError Bool) (e : Enumerator D K H) :
      Framed base (.halt answer e) (.halt answer (e.above base))

theorem Phase.Same.refl (phase : Phase) : phase.Same phase := by
  cases phase with
  | working => exact .working
  | retreating announce => exact .retreating announce announce
  | spent => exact .spent

theorem Phase.Same.symm {phase phase' : Phase} (same : phase.Same phase') : phase'.Same phase := by
  cases same with
  | working => exact .working
  | retreating announce announce' => exact .retreating announce' announce
  | spent => exact .spent

namespace Enumerator.Framed

variable {base : List (Choice D K H)} {e e' : Enumerator D K H}

theorem of_progress (e : Enumerator D K H) (progress : Progress) :
    e.Framed [] { e with progress } := by
  refine ⟨progress, ?_⟩
  rw [above_nil]

theorem refl (e : Enumerator D K H) : e.Framed [] e := by
  rcases e with ⟨root, pattern, seed, config, frame, choices, progress⟩
  exact of_progress _ progress

theorem above (e : Enumerator D K H) (base : List (Choice D K H)) : e.Framed base (e.above base) :=
  ⟨e.progress, rfl⟩

theorem symm (framed : e.Framed [] e') : e'.Framed [] e := by
  rcases framed with ⟨progress, rfl⟩
  refine ⟨e.progress, ?_⟩
  cases e
  simp only [Enumerator.above, List.append_nil]

theorem frame (framed : e.Framed base e') : e'.frame = e.frame := by
  rcases framed with ⟨progress, rfl⟩
  rfl

theorem config (framed : e.Framed base e') : e'.config = e.config := by
  rcases framed with ⟨progress, rfl⟩
  rfl

theorem dangling? {floor : List (Choice D K H)} {outer outer' : Enumerator D K H}
    (framed : e.Framed base e') (outside : outer.Framed floor outer') (leg : Leg D K H) :
    leg.dangling? outer'.config e'.frame.marks = leg.dangling? outer.config e.frame.marks := by
  rw [framed.frame, outside.config]

theorem drop (framed : e.Framed base e') (work : List (Task D K H)) :
    (e.drop work).Framed base (e'.drop work) := by
  rcases framed with ⟨progress, rfl⟩
  exact ⟨progress, rfl⟩

theorem yield (framed : e.Framed base e') : e'.yield = e.yield.above base := by
  rcases framed with ⟨progress, rfl⟩
  rfl

theorem finish (framed : e.Framed base e') : e'.finish = e.finish.above base := by
  rcases framed with ⟨progress, rfl⟩
  rfl

theorem branch (framed : e.Framed base e') (live : Frame D K H) (others : List (Frame D K H)) :
    (e.branch live others).Framed base (e'.branch live others) := by
  rcases framed with ⟨progress, rfl⟩
  refine ⟨progress, ?_⟩
  simp only [Enumerator.branch, Enumerator.above, List.append_assoc]

theorem adopt (framed : e.Framed base e') (leg : Leg D K H) (nested : Enumerator D K H) :
    (e.adopt leg nested).2.Framed base (e'.adopt leg nested).2 := by
  have saved : ({ e with choices := .tail leg nested :: e.choices } : Enumerator D K H).Framed base
      { e' with choices := .tail leg nested :: e'.choices } := by
    rcases framed with ⟨progress, rfl⟩
    exact ⟨progress, rfl⟩
  exact saved.branch _ _

theorem latest {choice : Choice D K H} {choices : List (Choice D K H)} (framed : e.Framed base e')
    (latest : e.choices = choice :: choices) : e'.choices = choice :: (choices ++ base) := by
  rcases framed with ⟨progress, rfl⟩
  change e.choices ++ base = _
  rw [latest, List.cons_append]

theorem pop (framed : e.Framed base e') (choices : List (Choice D K H)) :
    (e.pop choices).Framed base (e'.pop (choices ++ base)) := by
  rcases framed with ⟨progress, rfl⟩
  exact ⟨progress, rfl⟩

theorem resume (framed : e.Framed base e') (frame : Frame D K H) (choices : List (Choice D K H)) :
    ({ e with frame, choices } : Enumerator D K H).Framed base
      { e' with frame, choices := choices ++ base } := by
  rcases framed with ⟨progress, rfl⟩
  exact ⟨progress, rfl⟩

end Enumerator.Framed

namespace Machine

variable {base : List (Choice D K H)}

theorem framed_ask {inner : Enumerator D K H} {w : Waiting D K H} {waiting waiting' : List (Waiting D K H)}
    (around : Waiting.Framed base (w :: waiting) waiting') :
    (ask inner (w :: waiting)).Framed base (ask inner waiting') :=
  ⟨.refl inner, .refl _, around⟩

theorem framed_adopt {e e' outer outer' : Enumerator D K H} {waiting waiting' : List (Waiting D K H)}
    (active : e.Framed [] e') (outside : outer.Framed (Waiting.floor base waiting) outer')
    (rest : Waiting.Framed base waiting waiting') (leg : Leg D K H) :
    Framed base ⟨(outer.adopt leg e.yield).2, .working, waiting⟩
      ⟨(outer'.adopt leg e'.yield).2, .working, waiting'⟩ := by
  -- Others wait for the enumeration, so nothing of `base` lies below it.
  have solved : e'.yield = e.yield := active.yield.trans (Enumerator.above_nil e.yield)
  rw [solved]
  exact ⟨outside.adopt leg _, .working, rest⟩

theorem Framed.outermost {m m' : Machine D K H} (framed : m.Framed base m') :
    m.outermost.Framed base m'.outermost := by
  rcases m with ⟨e, phase, waiting⟩
  rcases m' with ⟨e', phase', waiting'⟩
  rcases framed with ⟨active, same, around⟩
  change Waiting.Framed base waiting waiting' at around
  induction around generalizing e e' phase phase' with
  | nil => exact active
  | cons outside origins rest ih =>
      rw [outermost_cons e phase .working, outermost_cons e' phase' .working]
      exact ih _ .working _ .working outside .working

theorem Idle.framed {e e' : Enumerator D K H} {phase phase' : Phase}
    {waiting waiting' : List (Waiting D K H)} (idle : Idle ⟨e, phase, waiting⟩)
    (active : e.Framed [] e') (same : phase.Same phase') : Idle ⟨e', phase', waiting'⟩ := by
  rcases idle with spent | ⟨announce, retreating, bottom⟩
  · cases spent
    cases same
    exact .inl rfl
  · cases retreating
    rcases active with ⟨progress, rfl⟩
    cases same with
    | retreating _ announce' =>
        refine .inr ⟨announce', rfl, ?_⟩
        change e.choices ++ [] = []
        rw [List.append_nil]
        exact bottom

variable [TreeLike D K] [BEq D] [BEq K] {host : Host D K H}

theorem Turns.framed {e e' : Enumerator D K H} {work : List (Task D K H)} {calls : List (Event D K H)}
    {outcome : Outcome D K H} (turns : Turns host e work calls outcome) (framed : e.Framed base e') :
    Turns host e' work calls outcome := by
  rcases framed with ⟨progress, rfl⟩
  exact turns

/-- The machine makes a step with the same calls to a turn above `base`. -/
def Shadows (host : Host D K H) (base : List (Choice D K H)) (m' : Machine D K H)
    (events : List (Event D K H)) (turn : Turn D K H) : Prop :=
  ∃ events' turn', Step host m' events' turn' ∧ Event.calls events' = Event.calls events ∧
    turn.Framed base turn'

section Shadows

variable {e e' : Enumerator D K H} {waiting waiting' : List (Waiting D K H)}
  (active : e.Framed (Waiting.floor base waiting) e') (around : Waiting.Framed base waiting waiting')
  {work : List (Task D K H)} {calls : List (Event D K H)}

include active around

theorem shadows_proceed {live : Frame D K H} {others : List (Frame D K H)}
    (turns : Turns host e work calls (.proceed live others)) :
    Shadows host base ⟨e', .working, waiting'⟩ (calls ++ e.branchNotes others.length)
      (.next ⟨e.branch live others, .working, waiting⟩) := by
  refine ⟨_, _, .proceed (turns.framed active), ?_, .next ⟨active.branch _ _, .working, around⟩⟩
  simp only [Event.calls_append, Event.calls_branchNotes]

theorem shadows_fail (turns : Turns host e work calls .fail) :
    Shadows host base ⟨e', .working, waiting'⟩ calls (.next ⟨e.drop work, .retreating true, waiting⟩) :=
  ⟨_, _, .fail (turns.framed active), rfl, .next ⟨active.drop work, .retreating _ _, around⟩⟩

theorem shadows_abort {error : MatchError} (turns : Turns host e work calls (.abort error)) :
    Shadows host base ⟨e', .working, waiting'⟩ calls
      (.halt (.error error) (outermost ⟨e.drop work, .working, waiting⟩).finish) := by
  have dropped : Framed base ⟨e.drop work, .working, waiting⟩ ⟨e'.drop work, .working, waiting'⟩ :=
    ⟨active.drop work, .working, around⟩
  refine ⟨_, _, .abort (turns.framed active), rfl, ?_⟩
  rw [dropped.outermost.finish]
  exact .halt _ _

theorem shadows_descend {datum : D} {pattern : Pattern D K H} {leg : Leg D K H}
    (turns : Turns host e work calls (.descend datum pattern leg)) :
    Shadows host base ⟨e', .working, waiting'⟩ (calls ++ e.note (.pathStep leg.step pattern))
      (.next (.ask (.seeded datum pattern e.frame.captures e.config)
        (⟨e.drop work, leg, .first⟩ :: waiting))) := by
  refine ⟨_, _, .descend (turns.framed active), ?_, .next ?_⟩
  · simp only [Event.calls_append, Event.calls_note]
  · rw [active.frame, active.config]
    exact framed_ask (.cons (active.drop _) .first around)

theorem shadows_resume {announce : Bool} {frame : Frame D K H} {choices : List (Choice D K H)}
    (latest : e.choices = .resume frame :: choices) :
    Shadows host base ⟨e', .retreating announce, waiting'⟩ (e.note (.backtrack choices.length))
      (.next ⟨{ e with frame, choices }, .working, waiting⟩) := by
  refine ⟨_, _, .resume (active.latest latest), ?_, .next ?_⟩
  · rw [Event.calls_note, Event.calls_note]
  · exact ⟨active.resume _ _, .working, around⟩

theorem shadows_reopen {announce announce' : Bool} {leg : Leg D K H} {nested : Enumerator D K H}
    {choices : List (Choice D K H)} (latest : e.choices = .tail leg nested :: choices) :
    Shadows host base ⟨e', .retreating announce', waiting'⟩ (e.note (.backtrack choices.length))
      (.next (.ask nested (⟨e.pop choices, leg, .again announce⟩ :: waiting))) := by
  refine ⟨_, _, .reopen (active.latest latest), ?_, .next ?_⟩
  · rw [Event.calls_note, Event.calls_note]
  · exact framed_ask (.cons (active.pop _) (.again _ _) around)

end Shadows

section Waited

variable {e e' : Enumerator D K H} {w : Waiting D K H} {waiting waiting' : List (Waiting D K H)}
  (active : e.Framed [] e') (around : Waiting.Framed base (w :: waiting) waiting')

include active around

theorem shadows_dangling {error : MatchError} (ready : e.frame.work = [])
    (dangles : w.leg.dangling? w.outer.config e.frame.marks = some error) :
    Shadows host base ⟨e', .working, waiting'⟩ (e.note (.solution e.frame.captures))
      (.halt (.error error)
        (outermost ⟨(w.outer.adopt w.leg e.yield).2, .working, waiting⟩).finish) := by
  cases around with
  | @cons outer outer' leg _ _ _ _ outside origins rest =>
      have raises := (active.dangling? outside leg).trans dangles
      refine ⟨_, _, .dangling (active.frame ▸ ready) raises, ?_, ?_⟩
      · rw [Event.calls_note, Event.calls_note]
      · rw [(framed_adopt active outside rest leg).outermost.finish]
        exact .halt _ _

theorem shadows_adopt (ready : e.frame.work = [])
    (leads : w.leg.dangling? w.outer.config e.frame.marks = none) :
    Shadows host base ⟨e', .working, waiting'⟩
      (e.note (.solution e.frame.captures) ++ (w.outer.adopt w.leg e.yield).1)
      (.next ⟨(w.outer.adopt w.leg e.yield).2, .working, waiting⟩) := by
  cases around with
  | @cons outer outer' leg _ _ _ _ outside origins rest =>
      have follows := (active.dangling? outside leg).trans leads
      refine ⟨_, _, .adopt (active.frame ▸ ready) follows, ?_, ?_⟩
      · simp only [Event.calls_append, Event.calls_note, calls_adopt]
      · exact .next (framed_adopt active outside rest leg)

theorem shadows_barren {phase phase' : Phase} (same : phase.Same phase')
    (idle : Idle ⟨e, phase, w :: waiting⟩) :
    Shadows host base ⟨e', phase', waiting'⟩
      (closing ⟨e, phase, w :: waiting⟩ ++ (Origin.giveUp w w.origin).1)
      (.next ⟨w.outer, .retreating (Origin.giveUp w w.origin).2, waiting⟩) := by
  cases around with
  | @cons outer outer' leg origin origin' _ _ outside origins rest =>
      refine ⟨_, _, .barren (idle.framed active same), ?_, .next ?_⟩
      · rw [Event.calls_append, Event.calls_append, calls_closing, calls_closing]
        exact (calls_giveUp ⟨outer', leg, origin'⟩).trans (calls_giveUp ⟨outer, leg, origin⟩).symm
      · exact ⟨outside, .retreating _ _, rest⟩

end Waited

/-- A step does the same above `base`, with the same calls, and does not touch what lies there. Only the
end of the outermost enumeration has to wait until nothing lies below. -/
theorem Framed.step {m m' : Machine D K H} {events : List (Event D K H)} {turn : Turn D K H}
    (framed : m.Framed base m') (step : Step host m events turn)
    (going : ∀ e, turn = .halt (.ok false) e → base = []) : Shadows host base m' events turn := by
  rcases m' with ⟨e', phase', waiting'⟩
  rcases framed with ⟨active, same, around⟩
  cases step with
  | proceed turns =>
      cases same
      exact shadows_proceed active around turns
  | fail turns =>
      cases same
      exact shadows_fail active around turns
  | abort turns =>
      cases same
      exact shadows_abort active around turns
  | descend turns =>
      cases same
      exact shadows_descend active around turns
  | solved ready =>
      cases same
      cases around
      refine ⟨_, _, .solved (active.frame ▸ ready), ?_, ?_⟩
      · rw [Event.calls_note, Event.calls_note]
      · rw [active.yield]
        exact .halt _ _
  | dangling ready dangles =>
      cases same
      exact shadows_dangling active around ready dangles
  | adopt ready leads =>
      cases same
      exact shadows_adopt active around ready leads
  | resume latest =>
      cases same
      exact shadows_resume active around latest
  | reopen latest =>
      cases same
      exact shadows_reopen active around latest
  | exhausted idle =>
      cases going _ rfl
      cases around
      refine ⟨_, _, .exhausted (idle.framed active same), ?_, ?_⟩
      · rw [calls_closing, calls_closing]
      · rw [active.finish]
        exact .halt _ _
  | barren idle => exact shadows_barren active around same idle

theorem Reaches.framed {m m' last : Machine D K H} {calls : List (Call D H)}
    (reaches : Reaches host m calls last) (framed : m.Framed base m') :
    ∃ last', Reaches host m' calls last' ∧ last.Framed base last' := by
  induction reaches generalizing m' with
  | refl m => exact ⟨m', .refl m', framed⟩
  | next now later ih =>
      rcases framed.step (step_of_eq now) nofun with ⟨events', _, step, calls, ⟨next⟩⟩
      rcases ih next with ⟨last', reaches, framed⟩
      refine ⟨last', ?_, framed⟩
      rw [← calls]
      exact .next (eq_of_step step) reaches

variable {m m' : Machine D K H} {found : Except MatchError Bool} {calls : List (Call D H)}
  {left : Enumerator D K H}

theorem Gives.framed (gives : m.Gives host found calls left) (framed : m.Framed base m')
    (going : found = .ok false → base = []) : m'.Gives host found calls (left.above base) := by
  rcases gives.exists_last with ⟨before, last, events, reaches, halts, rfl⟩
  rcases reaches.framed framed with ⟨last', reaches', framed'⟩
  have bottom (e : Enumerator D K H) (ends : Turn.halt found left = .halt (.ok false) e) :
      base = [] := by
    cases ends
    exact going rfl
  rcases framed'.step (step_of_eq halts) bottom with ⟨events', _, step, calls, ⟨⟩⟩
  rw [← calls]
  exact reaches'.halt (eq_of_step step)

theorem gives_congr {e e' : Enumerator D K H} {phase phase' : Phase} (active : e.Framed [] e')
    (same : phase.Same phase') :
    Gives host ⟨e, phase, []⟩ found calls left ↔ Gives host ⟨e', phase', []⟩ found calls left := by
  constructor
  · intro gives
    have framed : Framed [] ⟨e, phase, []⟩ ⟨e', phase', []⟩ := ⟨active, same, .nil⟩
    have given := gives.framed framed fun _ => rfl
    rwa [Enumerator.above_nil] at given
  · intro gives
    have framed : Framed [] ⟨e', phase', []⟩ ⟨e, phase, []⟩ := ⟨active.symm, same.symm, .nil⟩
    have given := gives.framed framed fun _ => rfl
    rwa [Enumerator.above_nil] at given

theorem Reaches.going {last : Machine D K H} (reaches : Reaches host m calls last)
    (going : m.waiting = [] → m.phase ≠ .spent) : last.waiting = [] → last.phase ≠ .spent := by
  induction reaches with
  | refl m => exact going
  | next now later ih =>
      refine ih fun alone => ?_
      cases step_of_eq now with
      | descend turns => cases alone
      | reopen latest => cases alone
      | _ => exact nofun

/-- Where a search comes to its end, above `base` it goes back to what lies there. -/
theorem Gives.retreats (gives : m.Gives host (.ok false) calls left) (framed : m.Framed base m')
    (going : m.waiting = [] → m.phase ≠ .spent) :
    ∃ e announce, Reaches host m' calls ⟨e, .retreating announce, []⟩ ∧
      e.Framed [] (left.backTo base) := by
  rcases gives.exists_last with ⟨before, last, events, reaches, halts, rfl⟩
  have busy := reaches.going going
  rcases reaches.framed framed with ⟨⟨e', phase', waiting'⟩, reaches', active, same, around⟩
  -- It ends where it has no choice points of its own left, and there the other one has those of `base`.
  cases step_of_eq halts with
  | @exhausted e phase idle =>
      rcases idle with spent | ⟨announce, retreating, bottom⟩
      · exact absurd spent (busy rfl)
      · cases retreating
        cases around
        cases same with
        | retreating _ announce' =>
            rw [calls_closing, List.append_nil]
            refine ⟨e', announce', reaches', .yielded, ?_⟩
            rcases active with ⟨progress, rfl⟩
            change e.choices = [] at bottom
            simp only [Enumerator.backTo, Enumerator.above, Enumerator.finish, Waiting.floor, bottom,
              List.nil_append, List.append_nil]

end Machine

namespace Enumerator

theorem framed_ask_above (e : Enumerator D K H) (base : List (Choice D K H)) :
    (Machine.ask e []).Framed base (.ask (e.above base) []) :=
  ⟨.above e base, .refl _, .nil⟩

theorem ask_of_yielded {e : Enumerator D K H} (yielded : e.progress = .yielded) :
    Machine.ask e [] = ⟨e, .retreating false, []⟩ := by
  rw [Machine.ask, yielded]
  rfl

variable [TreeLike D K] [BEq D] [BEq K] {host : Host D K H} {base : List (Choice D K H)}
  {e left last : Enumerator D K H} {calls : List (Call D H)}

theorem Delivers.above {env : Env D} (delivers : e.Delivers host (.ok (some env)) calls left) :
    (e.above base).Delivers host (.ok (some env)) calls (left.above base) := by
  rcases delivers_solution_iff.mp delivers with ⟨gives, rfl⟩
  exact delivers_solution_iff.mpr ⟨gives.framed (framed_ask_above e base) nofun, rfl⟩

theorem Delivers.fails_above {error : MatchError} (delivers : e.Delivers host (.error error) calls left) :
    (e.above base).Delivers host (.error error) calls (left.above base) :=
  delivers_error_iff.mpr ((delivers_error_iff.mp delivers).framed (framed_ask_above e base) nofun)

theorem Yields.above {solutions : List (Env D × List (Call D H))} (yields : e.Yields host solutions left) :
    (e.above base).Yields host solutions (left.above base) := by
  induction yields with
  | nil e => exact .nil _
  | cons now later ih => exact .cons now.above ih

theorem continuesAs_of_reaches {e' now : Enumerator D K H} {phase : Phase}
    (reaches : Machine.Reaches host (.ask e []) calls ⟨now, phase, []⟩) (active : now.Framed [] e')
    (same : phase.Same (.ofProgress e'.progress)) : e.ContinuesAs host calls e' := by
  refine continuesAs_of_gives fun found more last => ?_
  rw [reaches.gives_iff]
  simp only [Machine.gives_congr active same, Machine.ask]

theorem Delivers.continuesAs (delivers : e.Delivers host (.ok none) calls left)
    (going : e.progress ≠ .exhausted) (base : List (Choice D K H)) :
    (e.above base).ContinuesAs host calls (left.backTo base) := by
  have busy : Phase.ofProgress e.progress ≠ .spent := by
    cases progress : e.progress with
    | searching => exact nofun
    | yielded => exact nofun
    | exhausted => exact absurd progress going
  rcases (delivers_end_iff.mp delivers).retreats (framed_ask_above e base) fun _ => busy with
    ⟨now, announce, reaches, active⟩
  exact continuesAs_of_reaches reaches active (.retreating announce false)

end Enumerator

end TreeQuery
