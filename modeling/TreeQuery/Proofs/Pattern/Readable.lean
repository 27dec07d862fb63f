import TreeQuery.Proofs.Pattern.Equality
import TreeQuery.Proofs.Pattern.Layout
import TreeQuery.Tree

/-! The written form of a pattern can be read in one way only. It begins with an opening that ends where
a bracket or the next pattern begins, the opening and the bracket tell the kind except for what
separates the parts, and each part is read before the next one. -/

namespace TreeQuery

variable {D K H : Type}

section Letters

def inOpening (c : Char) : Bool := c.isAlphanum || ['_', '$', '=', '>'].contains c

def begins (c : Char) : Bool := inOpening c || ['(', '['].contains c

/-- Texts of which nothing belongs to a pattern before them. -/
inductive Follows : List Char → Prop where
  | nil : Follows []
  | blank (text : List Char) : Follows (' ' :: text)
  | comma (text : List Char) : Follows (',' :: text)
  | round (text : List Char) : Follows (')' :: text)
  | square (text : List Char) : Follows (']' :: text)

def readBracket : List Char → Bracket
  | '(' :: '.' :: _ => .dots
  | '(' :: _ => .round
  | '[' :: _ => .square
  | _ => .none

def readSeparator : List Char → List Char
  | ',' :: _ => [',', ' ']
  | ' ' :: '&' :: _ => [' ', '&', ' ']
  | ' ' :: '|' :: _ => [' ', '|', ' ']
  | _ => [' ']

theorem Follows.readBracket {text : List Char} (after : Follows text) :
    readBracket text = .none := by
  cases after <;> rfl

theorem Follows.takeWhile {text : List Char} (after : Follows text) :
    text.takeWhile inOpening = [] := by
  cases after <;> rfl

theorem readSeparator_append (k : PatternKind D K) {c : Char} (first : begins c = true)
    (text : List Char) : readSeparator (k.separator ++ c :: text) = k.separator := by
  have blank : readSeparator (' ' :: c :: text) = [' '] := by
    have other : c ≠ '&' ∧ c ≠ '|' := by
      constructor
      all_goals
        rintro rfl
        cases first
    simp [readSeparator, other]
  cases k <;> first | exact blank | rfl

def Word (s : String) : Prop := s ≠ "" ∧ ∀ c ∈ s.toList, c.isAlphanum = true

theorem inOpening_of_word {s : String} (word : Word s) : ∀ c ∈ s.toList, inOpening c = true := by
  intro c member
  rw [inOpening, word.2 c member, Bool.true_or]

end Letters

namespace PatternKind

variable [HasText D] [HasText K]

def Plain : PatternKind D K → Prop
  | atom _ | test | generate => False
  | capture name | template name => Word name
  | node kind | ofKind kind => Word (HasText.text kind)
  | _ => True

def asked? : PatternKind D K → Option K
  | node kind | ofKind kind => some kind
  | _ => none

variable {k l : PatternKind D K}

theorem inOpening_of_plain (plain : k.Plain) : ∀ c ∈ k.opening, inOpening c = true := by
  cases k with
  | atom | test | generate => cases plain
  | capture name | template name =>
      exact List.forall_mem_cons.mpr ⟨rfl, inOpening_of_word plain⟩
  | node kind | ofKind kind => exact inOpening_of_word plain
  | wild | contents | and | or | mark | path | window => exact List.all_eq_true.mp rfl

theorem bracket_of_opening_nil (plain : k.Plain) (empty : k.opening = []) : k.bracket = .round := by
  cases k with
  | atom | test | generate => cases plain
  | node kind | ofKind kind => exact absurd (String.toList_eq_nil_iff.mp empty) plain.1
  | contents | and | or => rfl
  | wild | capture | template | mark | path | window => cases empty

theorem beq_of_layout [BEq D] [BEq K] (plain : k.Plain) (plain' : l.Plain)
    (apart : ∀ a ∈ k.asked?, ∀ b ∈ l.asked?, HasText.text a = HasText.text b → (a == b) = true)
    (openings : k.opening = l.opening) (brackets : k.bracket = l.bracket)
    (separators : k.paired = true ∨ l.paired = true → k.separator = l.separator) :
    (k == l) = true := by
  cases k <;> cases l <;> try contradiction
  case capture.capture name name' | template.template name name' =>
    have same : name = name' := String.toList_inj.mp (List.cons.inj openings).2
    exact beq_iff_eq (a := name).mpr same
  case node.node kind kind' | ofKind.ofKind kind kind' =>
    exact apart kind rfl kind' rfl (String.toList_inj.mp openings)
  case node.contents | node.and | node.or =>
    exact absurd (String.toList_eq_nil_iff.mp openings) plain.1
  case contents.node | and.node | or.node =>
    exact absurd (String.toList_eq_nil_iff.mp openings.symm) plain'.1
  case and.contents | and.or | or.contents | or.and => cases separators (.inl rfl)
  case contents.and | contents.or => cases separators (.inr rfl)
  all_goals first | rfl | cases openings

end PatternKind

namespace Pattern

section Parts

variable {p q : Pattern D K H}

def asked (p : Pattern D K H) : List K := (TreeLike.nodes p).filterMap fun q => q.kind.asked?

theorem mem_asked_self {kind : K} (asks : kind ∈ p.kind.asked?) : kind ∈ p.asked :=
  List.mem_filterMap.mpr ⟨p, TreeLike.mem_nodes_self p, asks⟩

theorem mem_asked_child {kind : K} (member : q ∈ p.children) (asks : kind ∈ q.asked) :
    kind ∈ p.asked := by
  rcases List.mem_filterMap.mp asks with ⟨r, below, own⟩
  exact List.mem_filterMap.mpr
    ⟨r, TreeLike.mem_nodes_trans below (TreeLike.mem_nodes_child member), own⟩

variable [HasText K]

def Readable (p : Pattern D K H) : Prop := ∀ q ∈ TreeLike.nodes p, q.kind.Plain

theorem Readable.plain (readable : p.Readable) : p.kind.Plain :=
  readable p (TreeLike.mem_nodes_self p)

theorem Readable.child (readable : p.Readable) (member : q ∈ p.children) : q.Readable :=
  fun r below => readable r (TreeLike.mem_nodes_trans below (TreeLike.mem_nodes_child member))

theorem handle?_of_plain (plain : p.kind.Plain) : p.handle? = none := by
  cases p with
  | test | generate => cases plain
  | _ => rfl

end Parts

variable [HasText D] [HasText K]

theorem exists_begins {p : Pattern D K H} (plain : p.kind.Plain) :
    ∃ c text, p.letters = c :: text ∧ begins c = true := by
  rw [letters_eq]
  cases opening : p.kind.opening with
  | nil =>
      rw [inside, PatternKind.bracket_of_opening_nil plain opening]
      exact ⟨'(', _, rfl, rfl⟩
  | cons c text =>
      have letter : inOpening c = true :=
        PatternKind.inOpening_of_plain plain c (opening ▸ List.mem_cons_self)
      exact ⟨c, _, rfl, by rw [begins, letter, Bool.true_or]⟩

variable {p q : Pattern D K H} {ps qs : List (Pattern D K H)} {r s : List Char}

theorem takeWhile_letters (plain : p.kind.Plain) (after : Follows r) :
    (p.letters ++ r).takeWhile inOpening = p.kind.opening := by
  have stops : (p.inside ++ r).takeWhile inOpening = [] := by
    cases bracket : p.kind.bracket with
    | none =>
        rw [inside_of_none bracket]
        exact after.takeWhile
    | dots | round | square =>
        rw [inside, bracket]
        rfl
  rw [letters_eq, List.append_assoc,
    List.takeWhile_append_of_pos (PatternKind.inOpening_of_plain plain), stops, List.append_nil]

theorem readBracket_inside (plain : ∀ q ∈ p.children, q.kind.Plain) (after : Follows r) :
    readBracket (p.inside ++ r) = p.kind.bracket := by
  cases bracket : p.kind.bracket with
  | none =>
      rw [inside_of_none bracket]
      exact after.readBracket
  | dots | square =>
      rw [inside, bracket]
      rfl
  | round =>
      rw [inside, bracket]
      cases items : p.children with
      | nil => rfl
      | cons q qs =>
          rcases exists_begins (plain q (items ▸ List.mem_cons_self)) with ⟨c, text, opening, first⟩
          have other : c ≠ '.' := by
            rintro rfl
            cases first
          rw [intercalate_cons, opening]
          simp [Bracket.left, readBracket, other]

theorem follows_right (b : Bracket) (after : Follows r) : Follows (b.right ++ r) := by
  cases b with
  | none => exact after
  | dots | round => exact .round r
  | square => exact .square r

theorem follows_later (k : PatternKind D K) (ps : List (Pattern D K H)) (after : Follows r) :
    Follows (later k.separator ps ++ r) := by
  cases ps with
  | nil => exact after
  | cons p ps =>
      rw [later_cons]
      cases k with
      | path => exact .comma _
      | _ => exact .blank _

omit [HasText D] [HasText K] in
theorem right_ne_separator {b : Bracket} (closed : b ≠ .none) (k : PatternKind D K) :
    b.right ++ r ≠ k.separator ++ s := by
  cases b with
  | none => contradiction
  | dots | round | square => cases k <;> nofun

theorem right_ne_letters {b : Bracket} (closed : b ≠ .none) (plain : p.kind.Plain) :
    b.right ++ r ≠ p.letters ++ s := by
  rcases exists_begins plain with ⟨c, text, opening, first⟩
  rw [opening]
  cases b with
  | none => contradiction
  | dots | round | square =>
      rintro same
      cases same
      cases first

theorem separator_eq {k l : PatternKind D K} (plain : p.kind.Plain) (plain' : q.kind.Plain)
    (same : k.separator ++ (p.letters ++ r) = l.separator ++ (q.letters ++ s)) :
    k.separator = l.separator := by
  rcases exists_begins plain with ⟨c, _, opening, first⟩
  rcases exists_begins plain' with ⟨d, _, opening', first'⟩
  have read := congrArg readSeparator same
  rw [opening, opening', List.cons_append, List.cons_append, readSeparator_append k first,
    readSeparator_append l first'] at read
  exact read

section Reading

variable [BEq D] [BEq K] [BEq H]

/-- A text that can be read as either pattern followed by something can be read so in one way only, and
the patterns are equal. -/
def OneReading (p q : Pattern D K H) : Prop :=
  ∀ r s, Follows r → Follows s → p.letters ++ r = q.letters ++ s → (p == q) = true ∧ r = s

structure Legible (ps qs : List (Pattern D K H)) : Prop where
  plain : ∀ p ∈ ps, p.kind.Plain
  plain' : ∀ q ∈ qs, q.kind.Plain
  each : ∀ p ∈ ps, ∀ q ∈ qs, OneReading p q

theorem Legible.tail (legible : Legible (p :: ps) (q :: qs)) : Legible ps qs where
  plain p' member := legible.plain p' (List.mem_cons_of_mem p member)
  plain' q' member := legible.plain' q' (List.mem_cons_of_mem q member)
  each p' member q' member' :=
    legible.each p' (List.mem_cons_of_mem p member) q' (List.mem_cons_of_mem q member')

variable {k l : PatternKind D K} {b : Bracket}

theorem Legible.first (legible : Legible (p :: ps) (q :: qs)) (after : Follows r) (after' : Follows s)
    (same : p.letters ++ (later k.separator ps ++ (b.right ++ r)) =
      q.letters ++ (later l.separator qs ++ (b.right ++ s))) :
    (p == q) = true ∧
      later k.separator ps ++ (b.right ++ r) = later l.separator qs ++ (b.right ++ s) :=
  legible.each p List.mem_cons_self q List.mem_cons_self _ _
    (follows_later k ps (follows_right b after)) (follows_later l qs (follows_right b after')) same

theorem read_later (closed : b ≠ .none) (after : Follows r) (after' : Follows s)
    (legible : Legible ps qs)
    (same : later k.separator ps ++ (b.right ++ r) = later l.separator qs ++ (b.right ++ s)) :
    List.Forall₂ (fun p q => (p == q) = true) ps qs ∧ r = s ∧
      (0 < ps.length → k.separator = l.separator) := by
  induction ps generalizing qs with
  | nil =>
      cases qs with
      | nil => exact ⟨.nil, List.append_cancel_left same, nofun⟩
      | cons q qs =>
          rw [later_cons] at same
          exact absurd same (right_ne_separator closed l)
  | cons p ps ih =>
      cases qs with
      | nil =>
          rw [later_cons] at same
          exact absurd same.symm (right_ne_separator closed k)
      | cons q qs =>
          rw [later_cons, later_cons] at same
          have separators : k.separator = l.separator :=
            separator_eq (legible.plain p List.mem_cons_self) (legible.plain' q List.mem_cons_self) same
          have parts := List.append_inj_right same (congrArg List.length separators)
          rcases legible.first after after' parts with ⟨first, rest⟩
          rcases ih legible.tail rest with ⟨others, ends, -⟩
          exact ⟨.cons first others, ends, fun _ => separators⟩

theorem read_parts (closed : b ≠ .none) (after : Follows r) (after' : Follows s)
    (legible : Legible ps qs)
    (same : k.separator.intercalate (ps.map letters) ++ (b.right ++ r) =
      l.separator.intercalate (qs.map letters) ++ (b.right ++ s)) :
    List.Forall₂ (fun p q => (p == q) = true) ps qs ∧ r = s ∧
      (1 < ps.length → k.separator = l.separator) := by
  cases ps with
  | nil =>
      cases qs with
      | nil => exact ⟨.nil, List.append_cancel_left same, nofun⟩
      | cons q qs =>
          rw [intercalate_cons, List.append_assoc] at same
          exact absurd same (right_ne_letters closed (legible.plain' q List.mem_cons_self))
  | cons p ps =>
      cases qs with
      | nil =>
          rw [intercalate_cons, List.append_assoc] at same
          exact absurd same.symm (right_ne_letters closed (legible.plain p List.mem_cons_self))
      | cons q qs =>
          rw [intercalate_cons, intercalate_cons, List.append_assoc, List.append_assoc] at same
          rcases legible.first after after' same with ⟨first, rest⟩
          rcases read_later closed after after' legible.tail rest with ⟨others, ends, separators⟩
          exact ⟨.cons first others, ends, fun more => separators (Nat.lt_of_succ_lt_succ more)⟩

theorem read_inside (brackets : p.kind.bracket = q.kind.bracket) (after : Follows r)
    (after' : Follows s) (legible : Legible p.children q.children)
    (same : p.inside ++ r = q.inside ++ s) :
    List.Forall₂ (fun c d => (c == d) = true) p.children q.children ∧ r = s ∧
      (1 < p.children.length → p.kind.separator = q.kind.separator) := by
  by_cases bare : p.kind.bracket = .none
  · have bare' : q.kind.bracket = .none := brackets.symm.trans bare
    rw [inside_of_none bare, inside_of_none bare'] at same
    rw [children_of_none bare, children_of_none bare']
    exact ⟨.nil, same, nofun⟩
  · rw [inside, inside, ← brackets, List.append_assoc, List.append_assoc, List.append_assoc,
      List.append_assoc] at same
    exact read_parts bare after after' legible (List.append_cancel_left same)

theorem oneReading (readable : p.Readable) (readable' : q.Readable)
    (apart : ∀ k ∈ p.asked, ∀ l ∈ q.asked, HasText.text k = HasText.text l → (k == l) = true) :
    OneReading p q := by
  induction p using TreeLike.induction_children generalizing q with
  | step p ih =>
      intro r s after after' same
      -- The opening goes as far as letters do that no bracket and no separator begins with.
      have openings : p.kind.opening = q.kind.opening := by
        rw [← takeWhile_letters readable.plain after, same, takeWhile_letters readable'.plain after']
      have inner : p.inside ++ r = q.inside ++ s := by
        rw [letters_eq, letters_eq, openings, List.append_assoc, List.append_assoc] at same
        exact List.append_cancel_left same
      have legible : Legible p.children q.children := by
        constructor
        · exact fun c member => (readable.child member).plain
        · exact fun d member => (readable'.child member).plain
        · intro c member d member'
          apply ih c member (readable.child member) (readable'.child member')
          exact fun k asks l asks' =>
            apart k (mem_asked_child member asks) l (mem_asked_child member' asks')
      have brackets : p.kind.bracket = q.kind.bracket := by
        rw [← readBracket_inside legible.plain after, inner, readBracket_inside legible.plain' after']
      rcases read_inside brackets after after' legible inner with ⟨children, ends, separators⟩
      -- Only with two parts or more is there a separator to be read.
      have paired (either : p.kind.paired = true ∨ q.kind.paired = true) : 1 < p.children.length := by
        have length := children.length_eq
        rcases either with own | other
        · have two := length_of_paired own
          omega
        · have two := length_of_paired other
          omega
      have kinds : (p.kind == q.kind) = true :=
        PatternKind.beq_of_layout readable.plain readable'.plain
          (fun k asks l asks' => apart k (mem_asked_self asks) l (mem_asked_self asks'))
          openings brackets fun either => separators (paired either)
      have handles : (p.handle? == q.handle?) = true := by
        rw [handle?_of_plain readable.plain, handle?_of_plain readable'.plain]
        rfl
      exact ⟨beq_iff_parts.mpr ⟨kinds, children, handles⟩, ends⟩

end Reading

end Pattern

/-- Patterns that are written alike are equal, be it on their own or as data. -/
theorem display_unambiguous [HasText D] [HasText K] [BEq D] [BEq K] [BEq H] {a b : Pattern D K H}
    (readable : a.Readable) (readable' : b.Readable)
    (apart : ∀ k ∈ a.asked, ∀ l ∈ b.asked, HasText.text k = HasText.text l → (k == l) = true) :
    (a.display = b.display → (a == b) = true) ∧
      (HasText.text a = HasText.text b → (a == b) = true) := by
  have equal (same : a.display = b.display) : (a == b) = true := by
    have texts : a.letters ++ [] = b.letters ++ [] := by
      rw [Pattern.letters, same, Pattern.letters]
    exact (Pattern.oneReading readable readable' apart [] [] .nil .nil texts).1
  refine ⟨equal, fun same => equal ?_⟩
  have opened : "Pattern(" ++ a.display = "Pattern(" ++ b.display :=
    (String.append_left_inj ")").mp same
  exact (String.append_right_inj "Pattern(").mp opened

theorem display_unambiguous_path :
    let parts : List (Pattern Tree String Unit) := [.capture "x", .mark]
    (Pattern.node "path" parts).Readable ∧ (Pattern.path parts).Readable ∧
      (Pattern.node "path" parts).display = "path($x >)" ∧
      (Pattern.path parts).display = "path[$x, >]" ∧
      (Pattern.node "path" parts == .node "path" parts) = true ∧
      (Pattern.node "path" parts).display ≠ (Pattern.path parts).display := by
  intro parts
  have words : Word "x" ∧ Word "path" := by
    constructor <;> simp [Word]
  have node : (Pattern.node "path" parts).Readable := by
    simp [Pattern.Readable, parts, TreeLike.nodes_eq, TreeLike.children, Pattern.children,
      Pattern.kind, PatternKind.Plain, HasText.text, words]
  have path : (Pattern.path parts).Readable := by
    simp [Pattern.Readable, parts, TreeLike.nodes_eq, TreeLike.children, Pattern.children,
      Pattern.kind, PatternKind.Plain, words]
  have apart {k l : String} (same : HasText.text k = HasText.text l) : (k == l) = true :=
    beq_of_eq same
  have equal := (display_unambiguous node node fun _ _ _ _ => apart).1 rfl
  have unequal : (Pattern.node "path" parts == .path parts) = false := by decide
  refine ⟨node, path, by decide, by decide, equal, fun same => ?_⟩
  have alike := (display_unambiguous node path fun _ _ _ _ => apart).1 same
  rw [unequal] at alike
  cases alike

end TreeQuery
