import TreeQuery.Proofs.Pattern.Equality
import TreeQuery.Proofs.Pattern.Variation
import TreeQuery.Proofs.Search.Nodes

/-! Quoted data. The quotation of a datum is the pattern that asks at each node for its kind and for the
quotations of its children. Of patterns as data it matches those that differ from the quoted one in
nothing but the functions of the host. -/

namespace TreeQuery

variable {D K H : Type}

section Data

variable [TreeLike D K]

/-- Asks for the kind of each node of the datum and for as many children. -/
def Pattern.quote (d : D) : Pattern D K H :=
  .node (TreeLike.kind d) ((TreeLike.children d).attach.map fun child => quote child.1)
termination_by TreeLike.size d
decreasing_by exact TreeLike.size_lt_of_mem child.2

theorem Pattern.quote_eq (d : D) :
    (quote d : Pattern D K H) = .node (TreeLike.kind d) ((TreeLike.children d).map quote) := by
  rw [quote, List.attach_map_val]

variable [BEq K]

inductive TreeLike.Kindred : D → D → Prop where
  | intro {e d : D} (kinds : (kind e == kind d) = true)
      (each : List.Forall₂ Kindred (children e) (children d)) : Kindred e d

theorem TreeLike.kindred_iff {e d : D} :
    Kindred e d ↔ (kind e == kind d) = true ∧ List.Forall₂ Kindred (children e) (children d) := by
  constructor
  · rintro ⟨kinds, each⟩
    exact ⟨kinds, each⟩
  · rintro ⟨kinds, each⟩
    exact .intro kinds each

end Data

open TreeLike (Kindred kindred_iff)

namespace Pattern

section Matching

theorem guardCourse_bind (branch : Branch D) (holds : Bool)
    (next : Branch D → Course (Call D H) (Branch D)) :
    (guardCourse branch holds).bind next = if holds then next branch else .done := by
  cases holds with
  | false => rfl
  | true => exact Course.pure_bind branch next

variable [TreeLike D K] [BEq D] [BEq K] (host : Host D K H) (config : MatchConfig)
variable (expand : Pattern D K H → D → Branch D → Course (Call D H) (Branch D))

theorem exists_threadBy_quote {ds : List D}
    (each : ∀ d ∈ ds, ∀ e, ∃ holds : Bool, (holds = true ↔ Kindred e d) ∧
      ∀ branch, courseBy host config expand (quote d) e branch = guardCourse branch holds)
    {es : List D} (length : es.length = ds.length) :
    ∃ holds : Bool, (holds = true ↔ List.Forall₂ Kindred es ds) ∧
      ∀ branch, threadBy host config expand (ds.map quote) es branch = guardCourse branch holds := by
  induction ds generalizing es with
  | nil =>
      cases List.length_eq_zero_iff.mp length
      refine ⟨true, ⟨fun _ => .nil, fun _ => rfl⟩, fun branch => ?_⟩
      rw [List.map_nil, threadBy]
      · rfl
      · simp
  | cons d ds ih =>
      rcases List.exists_of_length_succ es length with ⟨e, es, rfl⟩
      have shorter : es.length = ds.length := Nat.succ.inj length
      rw [List.forall_mem_cons] at each
      rcases each.1 e with ⟨first, kindred, here⟩
      rcases ih each.2 shorter with ⟨rest, others, later⟩
      refine ⟨first && rest, ?_, fun branch => ?_⟩
      · rw [Bool.and_eq_true, kindred, others, List.forall₂_cons]
      · rw [List.map_cons, threadBy, here, guardCourse_bind, later]
        cases first <;> rfl

theorem exists_courseBy_quote (d e : D) :
    ∃ holds : Bool, (holds = true ↔ Kindred e d) ∧
      ∀ branch, courseBy host config expand (quote d) e branch = guardCourse branch holds := by
  induction d using TreeLike.induction_children generalizing e with
  | step d ih =>
      by_cases length : (TreeLike.children e).length = (TreeLike.children d).length
      · rcases exists_threadBy_quote host config expand ih length with ⟨rest, others, later⟩
        refine ⟨TreeLike.kind e == TreeLike.kind d && rest, ?_, fun branch => ?_⟩
        · rw [Bool.and_eq_true, others, kindred_iff]
        · rw [quote_eq, courseBy, List.length_map, length, beq_self_eq_true, Bool.and_true, later]
          cases TreeLike.kind e == TreeLike.kind d <;> rfl
      · have unlike : ¬ Kindred e d := fun kindred => length (kindred_iff.mp kindred).2.length_eq
        refine ⟨false, ⟨nofun, fun kindred => absurd kindred unlike⟩, fun branch => ?_⟩
        rw [quote_eq, courseBy, List.length_map, beq_false_of_ne length, Bool.and_false]
        rfl

end Matching

section Functions

/-- Puts a test in the place of a test, or a generator in the place of a generator. -/
inductive Replaces : Pattern D K H → Pattern D K H → Prop where
  | test (handle handle' : H) : Replaces (.test handle) (.test handle')
  | generate (handle handle' : H) : Replaces (.generate handle) (.generate handle')

variable {p q : Pattern D K H}

theorem forall₂_of_zip {R : Pattern D K H → Pattern D K H → Prop} {ps qs : List (Pattern D K H)}
    (length : ps.length = qs.length) (each : ∀ pair ∈ ps.zip qs, R pair.1 pair.2) :
    List.Forall₂ R ps qs :=
  List.forall₂_iff_zip.mpr ⟨length, fun {_ _} member => each _ member⟩

theorem zip_of_forall₂ {R : Pattern D K H → Pattern D K H → Prop} {ps qs : List (Pattern D K H)}
    (related : List.Forall₂ R ps qs) : ∀ pair ∈ ps.zip qs, R pair.1 pair.2 :=
  fun _ member => (List.forall₂_iff_zip.mp related).2 member

theorem Varies.kind_eq (varies : p.Varies Replaces q) : p.kind = q.kind := by
  cases varies with
  | exchange exchanged => cases exchanged <;> rfl
  | _ => rfl

theorem Varies.forall₂_children (varies : p.Varies Replaces q) :
    List.Forall₂ (Varies Replaces) p.children q.children := by
  cases varies with
  | exchange exchanged => cases exchanged <;> exact .nil
  | node _ length each | contents length each | path length each | window length each =>
      exact forall₂_of_zip length each
  | and one other | or one other => exact .cons one (.cons other .nil)
  | _ => exact .nil

theorem exists_varies {items : List (Pattern D K H)} {handle : Option H}
    (each : List.Forall₂ (Varies Replaces) p.children items)
    (calls : p.handle?.isSome = handle.isSome) :
    ∃ q, p.Varies Replaces q ∧ q.kind = p.kind ∧ q.children = items ∧ q.handle? = handle := by
  cases handle with
  | none =>
      cases p with
      | node kind _ => exact ⟨_, .node kind each.length_eq (zip_of_forall₂ each), rfl, rfl, rfl⟩
      | contents _ => exact ⟨_, .contents each.length_eq (zip_of_forall₂ each), rfl, rfl, rfl⟩
      | path _ => exact ⟨_, .path each.length_eq (zip_of_forall₂ each), rfl, rfl, rfl⟩
      | window _ => exact ⟨_, .window each.length_eq (zip_of_forall₂ each), rfl, rfl, rfl⟩
      | and left right =>
          rcases each with _ | ⟨one, _ | ⟨other, _ | _⟩⟩
          exact ⟨_, .and one other, rfl, rfl, rfl⟩
      | or left right =>
          rcases each with _ | ⟨one, _ | ⟨other, _ | _⟩⟩
          exact ⟨_, .or one other, rfl, rfl, rfl⟩
      | test _ | generate _ => cases calls
      | _ =>
          cases each
          exact ⟨_, .refl _, rfl, rfl, rfl⟩
  | some handle =>
      cases p with
      | test own =>
          cases each
          exact ⟨_, .exchange (.test own handle), rfl, rfl, rfl⟩
      | generate own =>
          cases each
          exact ⟨_, .exchange (.generate own handle), rfl, rfl, rfl⟩
      | _ => cases calls

variable [BEq D] [BEq K] [BEq H] [LawfulBEq H]

/-- A pattern is of another one's kind everywhere if it becomes equal to it when some of its functions are
replaced. -/
theorem kindred_iff_varies {p q : Pattern D K H} :
    Kindred q p ↔ ∃ q', q.Varies Replaces q' ∧ (q' == p) = true := by
  induction q using TreeLike.induction_children generalizing p with
  | step q ih =>
      rw [kindred_iff, forall₂_congr_of_mem fun r member s => ih r member, forall₂_comp]
      constructor
      · rintro ⟨kinds, items, varied, equal⟩
        rcases exists_varies varied (isSome_handle?_of_kind kinds) with ⟨q', varies, kind, own, calls⟩
        refine ⟨q', varies, beq_iff.mpr ⟨?_, ?_, calls⟩⟩
        · rw [kind]
          exact kinds
        · rw [own]
          exact equal
      · rintro ⟨q', varies, same⟩
        rcases beq_iff.mp same with ⟨kinds, each, -⟩
        rw [← varies.kind_eq] at kinds
        exact ⟨kinds, q'.children, varies.forall₂_children, each⟩

def FunctionFree (p : Pattern D K H) : Prop := ∀ q ∈ TreeLike.nodes p, q.handle? = none

omit [BEq D] [BEq K] [BEq H] [LawfulBEq H] in
theorem FunctionFree.child (free : p.FunctionFree) (member : q ∈ p.children) : q.FunctionFree :=
  fun r below => free r (TreeLike.mem_nodes_trans below (TreeLike.mem_nodes_child member))

theorem kindred_iff_beq (free : p.FunctionFree) : Kindred q p ↔ (q == p) = true := by
  induction p using TreeLike.induction_children generalizing q with
  | step p ih =>
      have each : List.Forall₂ Kindred q.children p.children ↔
          List.Forall₂ (fun r s => (r == s) = true) q.children p.children :=
        forall₂_congr_of_mem_right fun s member r => ih s member (free.child member)
      have silent : p.handle? = none := free p (TreeLike.mem_nodes_self p)
      rw [kindred_iff, beq_iff, silent]
      constructor
      · rintro ⟨kinds, related⟩
        have calls : q.handle?.isSome = p.handle?.isSome := isSome_handle?_of_kind kinds
        rw [silent, Option.isSome_none, Option.isSome_eq_false_iff, Option.isNone_iff_eq_none] at calls
        exact ⟨kinds, each.mp related, calls⟩
      · rintro ⟨kinds, related, -⟩
        exact ⟨kinds, each.mpr related⟩

end Functions

end Pattern

section Verdicts

variable {D K H : Type} [TreeLike D K] [BEq D] [BEq K] (host : Host D K H) (config : MatchConfig)

def verdict (holds : Bool) : Output (Call D H) (Except MatchError (Env D)) :=
  ⟨if holds then [.ok .empty] else [], []⟩

variable {host} in
theorem Enumerator.endsWith_verdict {e : Enumerator D K H} {holds : Bool} (depth : Nat)
    (tests : e.course host depth = Pattern.guardCourse ⟨.empty, []⟩ holds) :
    e.EndsWith host (verdict holds) := by
  have known : (e.items host depth).output? = some (verdict holds) := by
    rw [items, tests]
    cases holds <;> rfl
  exact endsWith_iff.mpr ⟨depth, known⟩

theorem endsWith_atom (value datum : D) :
    (findWith datum (.atom value) config).EndsWith host (verdict (datum == value)) :=
  Enumerator.endsWith_verdict 0 (course_findWith 0 datum (.atom value) config)

theorem exists_endsWith_quote (d e : D) :
    ∃ holds : Bool, (holds = true ↔ Kindred e d) ∧
      (findWith e (Pattern.quote d) config).EndsWith host (verdict holds) := by
  rcases Pattern.exists_courseBy_quote host config (Pattern.course host config 0) d e with
    ⟨holds, kindred, course⟩
  exact ⟨holds, kindred, Enumerator.endsWith_verdict 0 ((course_findWith ..).trans (course _))⟩

end Verdicts

open Pattern (quote Replaces)

variable {D K H H' : Type} [BEq D] [EquivBEq D] [BEq K] [EquivBEq K] [BEq H] [LawfulBEq H]

/-- Patterns are equal if they are as data, and this is an equivalence. The quotation of a pattern without
functions of the host finds what is equal to the pattern, as the pattern itself does that asks for an
equal datum. With functions it finds what becomes equal when functions are replaced. -/
theorem equality_quote (host : Host (Pattern D K H) (PatternKind D K) H') (config : MatchConfig) :
    (∀ a b : Pattern D K H, (a == b) = true ↔ (a.kind == b.kind) = true ∧
      List.Forall₂ (fun p q => (p == q) = true) a.children b.children ∧ a.handle? = b.handle?) ∧
    (Equivalence fun a b : Pattern D K H => (a == b) = true) ∧
    (∀ p q : Pattern D K H, p.FunctionFree →
      (findWith q (quote p) config).EndsWith host (verdict (q == p)) ∧
      (findWith q (.atom p) config).EndsWith host (verdict (q == p))) ∧
    ∀ p q : Pattern D K H, ∃ holds : Bool,
      (holds = true ↔ ∃ q', q.Varies Replaces q' ∧ (q' == p) = true) ∧
      (findWith q (quote p) config).EndsWith host (verdict holds) := by
  refine ⟨fun _ _ => Pattern.beq_iff, Pattern.beq_equivalence, fun p q free => ?_, fun p q => ?_⟩
  · rcases exists_endsWith_quote host config p q with ⟨holds, kindred, ends⟩
    have same : holds = (q == p) := Bool.eq_iff_iff.mpr (kindred.trans (Pattern.kindred_iff_beq free))
    rw [same] at ends
    exact ⟨ends, endsWith_atom host config p q⟩
  · rcases exists_endsWith_quote host config p q with ⟨holds, kindred, ends⟩
    exact ⟨holds, kindred.trans Pattern.kindred_iff_varies, ends⟩

theorem equality_quote_conjunction :
    let leaf : Pattern String String Nat := .and (.capture "x") (.atom "leaf")
    let tested (handle : Nat) : Pattern String String Nat := .and (.capture "x") (.test handle)
    let host : Host (Pattern String String Nat) (PatternKind String String) Nat :=
      ⟨fun _ _ => .ok true, fun _ _ => .ok .wild⟩
    leaf.FunctionFree ∧ (find leaf (quote leaf)).EndsWith host (verdict true) ∧
      (find (tested 1) (quote leaf)).EndsWith host (verdict false) ∧
      (tested 1 == tested 2) = false ∧
      (find (tested 1) (quote (tested 2))).EndsWith host (verdict true) := by
  intro leaf tested host
  have free : leaf.FunctionFree := by
    simp [Pattern.FunctionFree, leaf, TreeLike.nodes_eq, TreeLike.children, Pattern.children,
      Pattern.handle?]
  rcases equality_quote host {} with ⟨-, -, plain, varied⟩
  rcases varied (tested 2) (tested 1) with ⟨holds, becomes, ends⟩
  have exchanged : (tested 1).Varies Replaces (tested 2) :=
    .and (.capture "x") (.exchange (.test 1 2))
  have found : holds = true := becomes.mpr ⟨tested 2, exchanged, by decide⟩
  rw [found] at ends
  exact ⟨free, (plain leaf leaf free).1, (plain leaf (tested 1) free).1, by decide, ends⟩

end TreeQuery
