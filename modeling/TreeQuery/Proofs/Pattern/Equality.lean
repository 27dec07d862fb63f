import Mathlib.Data.List.Forall2
import TreeQuery.Pattern.Equality
import TreeQuery.Pattern.Kind
import TreeQuery.Proofs.Datum.Nodes

/-! Equality of patterns in terms of what patterns are as data. Equal patterns have equal kinds and equal
children, and the functions of the host in them are the same. -/

namespace TreeQuery

section Lists

variable {α β γ : Type} {R : α → β → Prop} {S : β → γ → Prop}

theorem forall₂_imp_of_mem {R' : α → β → Prop} {as : List α} {bs : List β}
    (related : List.Forall₂ R as bs) (more : ∀ a ∈ as, ∀ b, R a b → R' a b) :
    List.Forall₂ R' as bs := by
  induction related with
  | nil => exact .nil
  | @cons a b as bs first rest ih =>
      rw [List.forall_mem_cons] at more
      exact .cons (more.1 b first) (ih more.2)

theorem forall₂_congr_of_mem {R' : α → β → Prop} {as : List α} {bs : List β}
    (same : ∀ a ∈ as, ∀ b, R a b ↔ R' a b) : List.Forall₂ R as bs ↔ List.Forall₂ R' as bs :=
  ⟨fun related => forall₂_imp_of_mem related fun a member b => (same a member b).mp,
    fun related => forall₂_imp_of_mem related fun a member b => (same a member b).mpr⟩

theorem forall₂_congr_of_mem_right {R' : α → β → Prop} {as : List α} {bs : List β}
    (same : ∀ b ∈ bs, ∀ a, R a b ↔ R' a b) : List.Forall₂ R as bs ↔ List.Forall₂ R' as bs := by
  have back : List.Forall₂ (flip R) bs as ↔ List.Forall₂ (flip R') bs as := forall₂_congr_of_mem same
  exact ⟨fun related => (back.mp related.flip).flip, fun related => (back.mpr related.flip).flip⟩

theorem forall₂_comp {as : List α} {cs : List γ} :
    List.Forall₂ (fun a c => ∃ b, R a b ∧ S b c) as cs ↔
      ∃ bs, List.Forall₂ R as bs ∧ List.Forall₂ S bs cs := by
  constructor
  · intro related
    induction related with
    | nil => exact ⟨[], .nil, .nil⟩
    | cons first rest ih =>
        rcases first with ⟨b, one, other⟩
        rcases ih with ⟨bs, ones, others⟩
        exact ⟨b :: bs, .cons one ones, .cons other others⟩
  · rintro ⟨bs, ones, others⟩
    induction ones generalizing cs with
    | nil =>
        cases others
        exact .nil
    | cons one ones ih =>
        cases others with
        | cons other others => exact .cons ⟨_, one, other⟩ (ih others)

end Lists

variable {D K H : Type} [BEq D] [BEq K]

instance [EquivBEq D] [EquivBEq K] : EquivBEq (PatternKind D K) where
  rfl {a} := by
    cases a with
    | atom value => exact BEq.refl value
    | capture name | template name => exact BEq.refl name
    | node kind | ofKind kind => exact BEq.refl kind
    | wild | contents | and | or | mark | path | window | test | generate => rfl
  symm {a b} same := by
    cases a <;> cases b <;> try contradiction
    case atom.atom value _ => exact BEq.symm (a := value) same
    case capture.capture name _ | template.template name _ => exact BEq.symm (a := name) same
    case node.node kind _ | ofKind.ofKind kind _ => exact BEq.symm (a := kind) same
    all_goals rfl
  trans {a b c} same same' := by
    cases a <;> cases b <;> try contradiction
    all_goals cases c <;> try contradiction
    case atom.atom.atom value _ _ => exact BEq.trans (a := value) same same'
    case capture.capture.capture name _ _ | template.template.template name _ _ =>
      exact BEq.trans (a := name) same same'
    case node.node.node kind _ _ | ofKind.ofKind.ofKind kind _ _ =>
      exact BEq.trans (a := kind) same same'
    all_goals rfl

namespace Pattern

def handle? : Pattern D K H → Option H
  | test handle | generate handle => some handle
  | _ => none

variable [BEq H]

theorem beqAll_iff {ps qs : List (Pattern D K H)} :
    beqAll ps qs = true ↔ List.Forall₂ (fun p q => (p == q) = true) ps qs := by
  induction ps generalizing qs with
  | nil => cases qs <;> simp [beqAll]
  | cons p ps ih =>
      cases qs with
      | nil => simp [beqAll]
      | cons q qs =>
          rw [beqAll, Bool.and_eq_true, ih, List.forall₂_cons]
          rfl

/-- Patterns are equal if their kinds are, their children one by one, and the functions they call. -/
theorem beq_iff_parts {a b : Pattern D K H} :
    (a == b) = true ↔ (a.kind == b.kind) = true ∧
      List.Forall₂ (fun p q => (p == q) = true) a.children b.children ∧
      (a.handle? == b.handle?) = true := by
  change a.beq b = true ↔ a.kind.beq b.kind = true ∧ _
  cases a <;> cases b <;> simp [beq, PatternKind.beq, kind, children, handle?, beqAll_iff]
  case and.and | or.or => rfl

theorem beq_iff [LawfulBEq H] {a b : Pattern D K H} :
    (a == b) = true ↔ (a.kind == b.kind) = true ∧
      List.Forall₂ (fun p q => (p == q) = true) a.children b.children ∧ a.handle? = b.handle? := by
  rw [beq_iff_parts, beq_iff_eq (a := a.handle?)]

omit [BEq H] in
theorem isSome_handle?_of_kind {a b : Pattern D K H} (kinds : (a.kind == b.kind) = true) :
    a.handle?.isSome = b.handle?.isSome := by
  cases a <;> cases b <;> first | rfl | contradiction

variable [EquivBEq D] [EquivBEq K] [LawfulBEq H]

theorem beq_refl (p : Pattern D K H) : (p == p) = true := by
  induction p using TreeLike.induction_children with
  | step p ih => exact beq_iff.mpr ⟨BEq.refl p.kind, List.forall₂_same.mpr ih, rfl⟩

theorem beq_symm {a b : Pattern D K H} (same : (a == b) = true) : (b == a) = true := by
  induction a using TreeLike.induction_children generalizing b with
  | step a ih =>
      rcases beq_iff.mp same with ⟨kinds, each, handles⟩
      have back : List.Forall₂ (fun p q => (q == p) = true) a.children b.children :=
        forall₂_imp_of_mem each fun p member q => ih p member
      exact beq_iff.mpr ⟨BEq.symm kinds, back.flip, handles.symm⟩

theorem beq_trans {a b c : Pattern D K H} (same : (a == b) = true) (same' : (b == c) = true) :
    (a == c) = true := by
  induction a using TreeLike.induction_children generalizing b c with
  | step a ih =>
      rcases beq_iff.mp same with ⟨kinds, each, handles⟩
      rcases beq_iff.mp same' with ⟨kinds', each', handles'⟩
      have both := forall₂_comp.mpr ⟨b.children, each, each'⟩
      have direct : List.Forall₂ (fun p q => (p == q) = true) a.children c.children := by
        refine forall₂_imp_of_mem both fun p member r between => ?_
        rcases between with ⟨q, one, other⟩
        exact ih p member one other
      exact beq_iff.mpr ⟨BEq.trans kinds kinds', direct, handles.trans handles'⟩

theorem beq_equivalence : Equivalence fun a b : Pattern D K H => (a == b) = true :=
  ⟨beq_refl, beq_symm, beq_trans⟩

end Pattern

end TreeQuery
