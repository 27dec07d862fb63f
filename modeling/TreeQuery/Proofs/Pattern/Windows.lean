import TreeQuery.Proofs.Datum.Windows
import TreeQuery.Proofs.Pattern.Laws
import TreeQuery.Proofs.Search.Nodes

/-! A window, taken apart into alternatives. There is one for each place at which the window may begin,
and they begin on the same branch. -/

namespace TreeQuery

variable {D K H : Type}

namespace Pattern

def placed (arity : Nat) (items : List (Pattern D K H)) (start : Nat) : Pattern D K H :=
  .contents (List.replicate start .wild ++ items ++
    List.replicate (arity - items.length - start) .wild)

/-- The items at each place in turn. If there is no place for them, this is the test `never`. -/
def placedAnywhere (never : H) (arity : Nat) (items : List (Pattern D K H)) : Pattern D K H :=
  any never ((List.range (arity + 1 - items.length)).map (placed arity items))

theorem placedAnywhere_of_short {arity : Nat} {items : List (Pattern D K H)}
    (short : arity < items.length) (never : H) : placedAnywhere never arity items = .test never := by
  have none : arity + 1 - items.length = 0 := by omega
  rw [placedAnywhere, none, List.range_zero, List.map_nil, any]

variable [TreeLike D K] [BEq D] [BEq K] {host : Host D K H} {config : MatchConfig}
  {expand : Pattern D K H → D → Branch D → Course (Call D H) (Branch D)}

theorem threadBy_nil (ps : List (Pattern D K H)) (branch : Branch D) :
    threadBy host config expand ps [] branch = .pure branch := by
  cases ps <;> simp only [threadBy]

theorem threadBy_wild (count : Nat) (ps : List (Pattern D K H)) (data : List D) (branch : Branch D) :
    threadBy host config expand (List.replicate count .wild ++ ps) data branch =
      threadBy host config expand ps (data.drop count) branch := by
  induction count generalizing data with
  | zero => rfl
  | succ count ih =>
      cases data with
      | nil => rw [List.drop_nil, threadBy_nil, threadBy_nil]
      | cons datum data =>
          rw [List.replicate_succ, List.cons_append, threadBy, courseBy, Course.pure_bind, ih,
            List.drop_succ_cons]

theorem threadBy_append_wild (ps : List (Pattern D K H)) (count : Nat) (data : List D)
    (branch : Branch D) :
    threadBy host config expand (ps ++ List.replicate count .wild) data branch =
      threadBy host config expand ps data branch := by
  induction ps generalizing data branch with
  | nil =>
      calc
        _ = threadBy host config expand (List.replicate count .wild ++ []) data branch := by
          rw [List.nil_append, List.append_nil]
        _ = threadBy host config expand [] (data.drop count) branch := threadBy_wild ..
        _ = threadBy host config expand [] data branch := by simp only [threadBy]
  | cons p ps ih =>
      cases data with
      | nil => rw [threadBy_nil, threadBy_nil]
      | cons datum data => rw [List.cons_append, threadBy, threadBy, funext (ih data)]

theorem threadBy_take (ps : List (Pattern D K H)) (data : List D) (branch : Branch D) :
    threadBy host config expand ps (data.take ps.length) branch =
      threadBy host config expand ps data branch := by
  induction ps generalizing data branch with
  | nil => simp only [threadBy]
  | cons p ps ih =>
      cases data with
      | nil => rw [List.take_nil]
      | cons datum data =>
          rw [List.length_cons, List.take_succ_cons, threadBy, threadBy, funext (ih data)]

theorem courseBy_any (never : H) {ps : List (Pattern D K H)} (some_pattern : ps ≠ []) (datum : D)
    (branch : Branch D) :
    courseBy host config expand (any never ps) datum branch =
      .concat (ps.map fun p => courseBy host config expand p datum branch) := by
  cases ps with
  | nil => exact absurd rfl some_pattern
  | cons p ps => exact (joined_any never p ps).course_or datum branch

theorem courseBy_placed {items : List (Pattern D K H)} {datum : D} {start : Nat}
    (within : start + items.length ≤ TreeLike.arity datum) (branch : Branch D) :
    courseBy host config expand (.placed (TreeLike.arity datum) items start) datum branch =
      threadBy host config expand items
        (((TreeLike.children datum).drop start).take items.length) branch := by
  let before : List (Pattern D K H) := List.replicate start .wild
  let after : List (Pattern D K H) :=
    List.replicate (TreeLike.arity datum - items.length - start) .wild
  have length : (TreeLike.children datum).length = (before ++ items ++ after).length := by
    simp only [before, after, List.length_append, List.length_replicate]
    change TreeLike.arity datum = _
    omega
  calc
    _ = threadBy host config expand (before ++ items ++ after) (TreeLike.children datum) branch := by
      rw [placed, courseBy, if_pos (beq_iff_eq.mpr length)]
    _ = threadBy host config expand (before ++ items) (TreeLike.children datum) branch :=
      threadBy_append_wild ..
    _ = threadBy host config expand items ((TreeLike.children datum).drop start) branch :=
      threadBy_wild ..
    _ = _ := (threadBy_take ..).symm

theorem courseBy_placedAnywhere {items : List (Pattern D K H)} {datum : D}
    (fits : items.length ≤ TreeLike.arity datum) (never : H) (branch : Branch D) :
    courseBy host config expand (.placedAnywhere never (TreeLike.arity datum) items) datum branch =
      courseBy host config expand (.window items) datum branch := by
  have some_place : (List.range (TreeLike.arity datum + 1 - items.length)).map
      (placed (TreeLike.arity datum) items) ≠ [] := by
    apply List.ne_nil_of_length_pos
    rw [List.length_map, List.length_range]
    omega
  rw [placedAnywhere, courseBy_any never some_place, courseBy, slices_eq_windows, windows,
    List.map_map, List.map_map]
  refine congrArg _ (List.map_congr_left fun start inside => courseBy_placed ?_ branch)
  have bound := List.mem_range.mp inside
  omega

end Pattern

namespace Enumerator

def facing (e : Enumerator D K H) (datum : D) (p : Pattern D K H) : Enumerator D K H :=
  { e with frame := e.frame.push [.ofPattern datum p], progress := .searching }

/-- The enumeration explores the branches one after the other, and then it goes back to the choice
points that it has. -/
def trying (e : Enumerator D K H) (frames : List (Frame D K H)) : Enumerator D K H :=
  { e with choices := frames.map .resume ++ e.choices, progress := .yielded }

def alone (e : Enumerator D K H) (frame : Frame D K H) : Enumerator D K H :=
  { e with frame, choices := [], progress := .searching }

variable [TreeLike D K] [BEq D] [BEq K] {host : Host D K H} {visible : Call D H → Bool}

theorem course_facing (depth : Nat) (e : Enumerator D K H) (datum : D) (p : Pattern D K H) :
    (e.facing datum p).course host depth =
      (p.course host e.config (depth + 1) datum e.frame.branch).bind
        (workCourse host depth e.config e.frame.work) ++
      Choice.courses host depth e.config e.choices := by
  simp only [facing, Enumerator.course]
  rfl

theorem course_trying (depth : Nat) (e : Enumerator D K H) (frames : List (Frame D K H)) :
    (e.trying frames).course host depth =
      .concat (frames.map (Frame.course host depth e.config)) ++
        Choice.courses host depth e.config e.choices := by
  rw [course_yielded rfl, trying, Choice.courses_append, Choice.courses_resume]

theorem course_alone (depth : Nat) (e : Enumerator D K H) (frame : Frame D K H) :
    (e.alone frame).course host depth = frame.course host depth e.config := by
  simp only [alone, Enumerator.course, Choice.courses, Course.append_done]

theorem course_trying_parts (depth : Nat) (e : Enumerator D K H) (frames : List (Frame D K H)) :
    (e.trying frames).course host depth =
      .concat ((frames.map e.alone ++ [e.trying []]).map fun part => part.course host depth) := by
  have each : (fun part => part.course host depth) ∘ e.alone = Frame.course host depth e.config :=
    funext (e.course_alone depth)
  have last : (e.trying []).course host depth = Choice.courses host depth e.config e.choices :=
    course_trying depth e []
  rw [course_trying, List.map_append, List.map_map, each, Course.concat_append, List.map_singleton,
    last, Course.concat, Course.concat, Course.append_done]

theorem course_facing_window (depth : Nat) (e : Enumerator D K H) (datum : D)
    (items : List (Pattern D K H)) :
    (e.facing datum (.window items)).course host depth =
      (e.trying ((windows items.length (TreeLike.children datum)).map
        (e.frame.pushPairs · items))).course host depth := by
  have each : Frame.course host depth e.config ∘ (e.frame.pushPairs · items) = fun run =>
      (Pattern.threadBy host e.config (Pattern.course host e.config depth) items run
        e.frame.branch).bind (workCourse host depth e.config e.frame.work) :=
    funext fun run => Frame.course_pushPairs e.frame run items
  rw [course_facing, course_trying, List.map_map, each, ← Course.concat_bind, Pattern.course,
    Pattern.courseBy, slices_eq_windows]

theorem course_facing_placedAnywhere {e : Enumerator D K H} {datum : D} {items : List (Pattern D K H)}
    (fits : items.length ≤ TreeLike.arity datum) (never : H) (depth : Nat) :
    (e.facing datum (.placedAnywhere never (TreeLike.arity datum) items)).course host depth =
      (e.facing datum (.window items)).course host depth := by
  rw [course_facing, course_facing, Pattern.course, Pattern.courseBy_placedAnywhere fits]

theorem agree_placedAnywhere (e : Enumerator D K H) (datum : D) (items : List (Pattern D K H))
    {never : H} (fails : host.test never datum = .ok false)
    (hidden : TreeLike.arity datum < items.length → visible (.test never datum) = false) :
    Agree host visible (fun branch branch' => branch = branch') (e.facing datum (.window items))
      (e.facing datum (.placedAnywhere never (TreeLike.arity datum) items)) := by
  refine agree_of_filter fun depth => ?_
  by_cases fits : items.length ≤ TreeLike.arity datum
  · rw [course_facing_placedAnywhere fits]
  · have short : TreeLike.arity datum < items.length := Nat.lt_of_not_le fits
    have unseen : ¬visible (.test never datum) = true := by
      rw [hidden short]
      exact Bool.false_ne_true
    have none : (e.facing datum (.window items)).course host depth =
        Choice.courses host depth e.config e.choices := by
      rw [course_facing_window, windows_of_short short, List.map_nil]
      exact course_trying depth e []
    have tested : (e.facing datum (.test never)).course host depth =
        .event (.test never datum) (Choice.courses host depth e.config e.choices) := by
      rw [course_facing, Pattern.course, Pattern.courseBy, fails]
      rfl
    rw [Pattern.placedAnywhere_of_short short, none, tested, Course.filter, if_neg unseen]

theorem step_facing_of_fail {e : Enumerator D K H} {datum : D} {p : Pattern D K H}
    (fails : e.frame.apply host e.config datum p = .fail) (waiting : List (Waiting D K H)) :
    (⟨e.facing datum p, .working, waiting⟩ : Machine D K H).step host =
      (e.frame.calls datum p, .next ⟨{ e with progress := .searching }, .retreating true, waiting⟩) := by
  let begun : Machine D K H := ⟨{ e with progress := .searching }, .working, waiting⟩
  calc
    _ = (e.frame.calls datum p ++ (begun.settle (e.frame.apply host e.config datum p)).1,
        (begun.settle (e.frame.apply host e.config datum p)).2) := rfl
    _ = _ := by
      rw [fails, Machine.settle, List.append_nil]

theorem endsWith_concat {e : Enumerator D K H} {parts : List (Enumerator D K H)}
    {own : Enumerator D K H → Output (Call D H) (Except MatchError (Env D))}
    (each : ∀ part ∈ parts, part.EndsWith host (own part))
    (whole : ∀ depth, e.course host depth = .concat (parts.map fun part => part.course host depth)) :
    ∃ calls, e.EndsWith host ⟨uptoError (parts.flatMap fun part => (own part).items), calls⟩ := by
  have settled : ∀ part ∈ parts, ∃ results,
      Course.Settles (fun depth => part.course host depth) results ∧
        (own part).items = (results.map Branch.captures).itemized :=
    fun part member => (each part member).settles
  choose! results settles items using settled
  have known : ∀ r ∈ (parts.map results).map (Results.map Branch.captures), r.ending ≠ .limit := by
    simp only [List.forall_mem_map]
    exact fun part member => (settles part member).ending_ne_limit
  have upto : ((Results.concat (parts.map results)).map Branch.captures).itemized =
      uptoError (parts.flatMap fun part => (own part).items) := by
    rw [Results.map_concat, Results.itemized_concat known, List.map_map, List.flatMap_map]
    exact congrArg uptoError (List.flatMap_congr fun part member => (items part member).symm)
  have comes : Course.Settles (fun depth => e.course host depth) (.concat (parts.map results)) := by
    simp only [whole]
    exact .concat parts settles fun part => part.course_grows
  rw [← upto]
  exact endsWith_of_settles comes

end Enumerator

variable [TreeLike D K] [BEq D] [BEq K]

open Enumerator (Agree) in
/-- In any state of an enumeration a window is as good as its alternatives, one for each place at which
it may begin, from left to right. All of them explore branches of their own, with the bindings, the
marks and the work from before the window, and then come the choice points from before. So the results
are those of the windows, each of them alone, up to the first error. A window of no items has one more
place than there are children. A window of more items than children has no place: then a step leads
back to the choice points, and nothing else has changed. -/
theorem window_placedAnywhere (host : Host D K H) (e : Enumerator D K H) (datum : D)
    (items : List (Pattern D K H)) (never : H) (fails : host.test never datum = .ok false) :
    let window := Pattern.window items
    let alternatives := Pattern.placedAnywhere never (TreeLike.arity datum) items
    let frames := (windows items.length (TreeLike.children datum)).map (e.frame.pushPairs · items)
    (∀ visible : Call D H → Bool,
      (TreeLike.arity datum < items.length → visible (.test never datum) = false) →
      Agree host visible (fun branch branch' => branch = branch') (e.facing datum window)
        (e.facing datum alternatives)) ∧
    Agree host (fun _ => true) (fun branch branch' => branch = branch') (e.facing datum window)
      (e.trying frames) ∧
    (∀ own : Enumerator D K H → Output (Call D H) (Except MatchError (Env D)),
      (∀ part ∈ frames.map e.alone ++ [e.trying []], part.EndsWith host (own part)) →
      ∃ calls, (e.facing datum window).EndsWith host
        ⟨uptoError ((frames.map e.alone ++ [e.trying []]).flatMap fun part => (own part).items),
          calls⟩) ∧
    (items = [] → ∀ p ∈ [window, alternatives],
      Agree host (fun _ => true) (fun branch branch' => branch = branch') (e.facing datum p)
        (e.trying (List.replicate (TreeLike.arity datum + 1) e.frame))) ∧
    (TreeLike.arity datum < items.length → ∀ p ∈ [window, alternatives], ∀ waiting,
      (⟨e.facing datum p, .working, waiting⟩ : Machine D K H).step host =
        (e.frame.calls datum p,
          .next ⟨{ e with progress := .searching }, .retreating true, waiting⟩)) := by
  intro window alternatives frames
  have explored (depth : Nat) : (e.facing datum window).course host depth =
      (e.trying frames).course host depth := Enumerator.course_facing_window depth e datum items
  refine ⟨fun visible hidden => e.agree_placedAnywhere datum items fails hidden, ?_, ?_, ?_, ?_⟩
  · exact Enumerator.agree_of_filter fun depth => by rw [explored]
  · intro own each
    refine Enumerator.endsWith_concat each fun depth => ?_
    rw [explored, Enumerator.course_trying_parts]
  · rintro rfl p member
    have empty : frames = List.replicate (TreeLike.arity datum + 1) e.frame := by
      simp only [frames, List.length_nil, windows_zero, List.map_replicate]
      rfl
    have same (depth : Nat) : (e.facing datum p).course host depth =
        (e.facing datum window).course host depth := by
      simp only [List.mem_cons, List.not_mem_nil, or_false] at member
      rcases member with rfl | rfl
      · rfl
      · exact Enumerator.course_facing_placedAnywhere (Nat.zero_le _) never depth
    refine Enumerator.agree_of_filter fun depth => ?_
    rw [same, explored, empty]
  · intro short p member waiting
    refine Enumerator.step_facing_of_fail ?_ waiting
    simp only [List.mem_cons, List.not_mem_nil, or_false] at member
    rcases member with rfl | rfl
    · simp only [window, Frame.apply, windows_of_short short, List.map_nil, Outcome.ofFrames]
    · simp only [alternatives, Pattern.placedAnywhere_of_short short, Frame.apply, fails]
      rfl

def neverHost : Host Tree String Unit := ⟨fun _ _ => .ok false, fun _ _ => .ok .wild⟩

theorem window_placedAnywhere_pair :
    let datum : Tree := .list [.int 1, .sym "a", .int 1]
    let items : List (Pattern Tree String Unit) := [.template "x", .capture "y"]
    let e : Enumerator Tree String Unit :=
      { findWith datum .wild {} with
        frame := ⟨⟨[("x", .int 1)]⟩, [.ofPattern datum (.capture "z")], [.sym "m"]⟩
        choices := [.resume ⟨⟨[("y", .int 0)]⟩, [], []⟩] }
    neverHost.test () datum = .ok false ∧
      Enumerator.Agree neverHost (fun _ => true) (fun branch branch' => branch = branch')
        (e.facing datum (.window items)) (e.facing datum (.placedAnywhere () 3 items)) ∧
      ∃ replies, (e.facing datum (.placedAnywhere () 3 items)).advances neverHost 40 3 =
          some replies ∧
        replies.map Reply.answer =
          [.ok (some ⟨[("x", .int 1), ("y", .sym "a"), ("z", datum)]⟩),
            .ok (some ⟨[("y", .int 0)]⟩), .ok none] := by
  intro datum items e
  refine ⟨rfl, ?_, _, rfl, rfl⟩
  exact (window_placedAnywhere neverHost e datum items () rfl).1 _ fun short => absurd short (by decide)

end TreeQuery
