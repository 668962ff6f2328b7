import MarkupTree.Value
import MarkupTree.Proofs.Comparison

/-!
# Equality of values

A value answers to the values of its own kind and to no others, and two values decline each other
together. So asking the other side or falling back on identity never finds an equality that the left
side has not found, and what is equal is the same: trees of one structure, contents and tags that
hold the same, and foreign values that are one. This makes equality an equivalence that never leaves
a kind.
-/
namespace MarkupTree

/-- Foreign values compare with one another by kind and by value. -/
structure Outside.ByKindAndValue {φ κ : Type} [Outside φ] (kind : φ → κ) : Prop where
  declines : ∀ x y : φ, answer x y = none ↔ kind x ≠ kind y
  equal : ∀ x y : φ, answer x y = some true ↔ x = y

theorem Content.kind_ne_node (c : Content) : c.kind ≠ .node := by
  cases c <;> simp [kind]

theorem Content.kind_ne_tag (c : Content) : c.kind ≠ .tag := by
  cases c <;> simp [kind]

theorem Content.Same.kind {a b : Content} (h : a.Same b) : a.kind = b.kind := by
  cases h <;> rfl

namespace Value
variable {φ κ : Type} {kind : φ → κ}

/-- The kind of any value. The kinds of foreign values are none of the five. -/
def sort (kind : φ → κ) : Value φ → Kind ⊕ κ
  | node _ => .inl .node
  | content c => .inl c.kind
  | tag _ => .inl .tag
  | foreign x => .inr (kind x)

def node? : Value φ → Option Node
  | node n => some n
  | content _ | tag _ | foreign _ => none

/-- Wherever two trees of a pool of values have one mark, the same tree hangs there. -/
def MarksAgree (pool : List (Value φ)) : Prop := Node.MarksNameTrees (pool.filterMap node?)

/-- Values of one kind that hold the same. -/
inductive Same : Value φ → Value φ → Prop where
  | node {a b : Node} (trees : a.SameStructure b) : Same (node a) (node b)
  | content {a b : Content} (contents : a.Same b) : Same (content a) (content b)
  | tag {a b : Tag} (tags : a.Same b) : Same (tag a) (tag b)
  | foreign (x : φ) : Same (foreign x) (foreign x)

theorem MarksAgree.of_mem {pool : List (Value φ)} (h : MarksAgree pool) {a b : Value φ}
    (ha : a ∈ pool) (hb : b ∈ pool) : MarksAgree [a, b] := by
  apply Node.MarksNameTrees.of_subset h
  intro n member
  obtain ⟨v, within, held⟩ := List.mem_filterMap.mp member
  apply List.mem_filterMap.mpr
  rcases List.mem_pair.mp within with rfl | rfl
  · exact ⟨v, ha, held⟩
  · exact ⟨v, hb, held⟩

theorem Same.refl (a : Value φ) : Same a a := by
  cases a with
  | node n => exact .node (.refl n)
  | content c => exact .content (.refl c)
  | tag t => exact .tag ⟨rfl, fun _ => rfl⟩
  | foreign x => exact .foreign x

theorem Same.symm {a b : Value φ} (h : Same a b) : Same b a := by
  cases h with
  | node trees => exact .node trees.symm
  | content contents => exact .content contents.symm
  | tag tags => exact .tag tags.symm
  | foreign x => exact .foreign x

theorem Same.trans {a b c : Value φ} (h : Same a b) (h' : Same b c) : Same a c := by
  cases h with
  | node trees =>
      cases h' with
      | node trees' => exact .node (trees.trans trees')
  | content contents =>
      cases h' with
      | content contents' => exact .content (contents.trans contents')
  | tag tags =>
      cases h' with
      | tag tags' => exact .tag (tags.trans tags')
  | foreign x => exact h'

theorem sort_eq_iff_of_kind {a b : Value φ} {own : Kind} (h : a.kind? = some own) :
    a.sort kind = b.sort kind ↔ b.kind? = some own := by
  cases a <;> cases h <;> cases b <;> simp [sort, kind?, eq_comm]

variable [Outside φ]

/-- Equality by the left answer, else the right one, else by whether both are one object. -/
def equalOr (identical : Value φ → Value φ → Bool) (a b : Value φ) : Bool :=
  (answer a b <|> answer b a).getD (identical a b)

def differsOr (identical : Value φ → Value φ → Bool) (a b : Value φ) : Bool :=
  (denial a b <|> denial b a).getD (!identical a b)

/-- A value declines exactly the values of other kinds. -/
theorem answer_eq_none_iff (foreign : Outside.ByKindAndValue kind) {a b : Value φ} :
    a.answer b = none ↔ a.sort kind ≠ b.sort kind := by
  cases a with
  | node n => cases b <;> simp [answer, sort, (Content.kind_ne_node _).symm]
  | content c =>
      cases b <;> simp [answer, sort, Content.kind_ne_node, Content.kind_ne_tag]
  | tag t => cases b <;> simp [answer, sort, (Content.kind_ne_tag _).symm]
  | foreign x => cases b <;> simp [answer, sort, foreign.declines]

theorem answer_eq_true_iff (foreign : Outside.ByKindAndValue kind) {a b : Value φ}
    (marks : MarksAgree [a, b]) : a.answer b = some true ↔ Same a b := by
  constructor
  · intro h
    cases a <;> cases b <;> simp only [answer, reduceCtorEq] at h
    case node.node m n =>
      rw [Node.equal_eq_alike marks, Option.some_inj, Node.alike_iff_sameStructure] at h
      exact .node h
    case content.content c d =>
      split at h
      · exact .content (Content.alike_iff.mp (Option.some.inj h))
      · cases h
    case tag.tag s t => exact .tag (Tag.alike_iff.mp (Option.some.inj h))
    case foreign.foreign x y =>
      obtain rfl := (foreign.equal x y).mp h
      exact .foreign x
  · intro h
    cases h with
    | @node m n trees =>
        rw [answer, Node.equal_eq_alike marks, Node.alike_iff_sameStructure.mpr trees]
    | content contents => rw [answer, if_pos contents.kind, Content.alike_of_same contents]
    | tag tags => rw [answer, Tag.alike_iff.mpr tags]
    | foreign x => exact (foreign.equal x x).mpr rfl

theorem equal_of_answer {a b : Value φ} {verdict : Bool} (h : a.answer b = some verdict) :
    a.equal b = verdict := by
  rw [equal, h]
  rfl

/-- Where the left side declines, the right side declines too. -/
theorem answer_eq_none_comm (foreign : Outside.ByKindAndValue kind) {a b : Value φ} :
    a.answer b = none ↔ b.answer a = none := by
  rw [answer_eq_none_iff foreign, answer_eq_none_iff foreign, ne_comm]

theorem equal_of_decline (foreign : Outside.ByKindAndValue kind) {a b : Value φ}
    (h : a.answer b = none) : a.equal b = false := by
  rw [equal, h, (answer_eq_none_comm foreign).mp h]
  rfl

theorem equal_iff_same (foreign : Outside.ByKindAndValue kind) {a b : Value φ}
    (marks : MarksAgree [a, b]) : a.equal b = true ↔ Same a b := by
  rw [← answer_eq_true_iff foreign marks]
  cases h : a.answer b with
  | none => simp [equal_of_decline foreign h]
  | some verdict => simp [equal_of_answer h]

theorem differs_eq_not_equal (a b : Value φ) : a.differs b = !a.equal b := by
  rw [differs, equal, denial, denial]
  cases a.answer b <;> cases b.answer a <;> rfl

/-- Identity decides nothing, because one value never declines itself. -/
theorem equalOr_eq_equal (foreign : Outside.ByKindAndValue kind)
    {identical : Value φ → Value φ → Bool} (one : ∀ a b, identical a b = true → a = b)
    (a b : Value φ) : equalOr identical a b = a.equal b := by
  cases h : a.answer b with
  | some verdict =>
      rw [equal_of_answer h, equalOr, h]
      rfl
  | none =>
      have apart : identical a b = false := by
        rw [← Bool.not_eq_true]
        intro same
        rw [one a b same] at h
        exact (answer_eq_none_iff foreign).mp h rfl
      rw [equal_of_decline foreign h, equalOr, h, (answer_eq_none_comm foreign).mp h, apart]
      rfl

theorem differsOr_eq_not_equalOr (identical : Value φ → Value φ → Bool) (a b : Value φ) :
    differsOr identical a b = !equalOr identical a b := by
  rw [differsOr, equalOr, denial, denial]
  cases a.answer b <;> cases b.answer a <;> rfl

/-- In any pool of values whose marks name trees, equality is an equivalence, difference is its
negation, and values of two kinds are never equal. A value of the five kinds declines exactly the
values of other kinds and otherwise answers whether the two are equal. Whatever tells when two
values are one object, falling back on it changes neither equality nor difference. -/
theorem equal_equivalence_within_kinds (foreign : Outside.ByKindAndValue kind)
    {pool : List (Value φ)} (marks : MarksAgree pool) :
    Equivalence (fun a b : {v : Value φ // v ∈ pool} => a.1.equal b.1 = true) ∧
      ∀ a ∈ pool, ∀ b ∈ pool,
        a.differs b = !a.equal b ∧
        (a.sort kind ≠ b.sort kind → a.equal b = false) ∧
        (∀ own, a.kind? = some own →
          (a.answer b = none ↔ b.kind? ≠ some own) ∧
          (b.kind? = some own → a.answer b = some (a.equal b))) ∧
        ∀ identical : Value φ → Value φ → Bool, (∀ x y, identical x y = true → x = y) →
          equalOr identical a b = a.equal b ∧ differsOr identical a b = a.differs b := by
  constructor
  · constructor
    · intro a
      exact (equal_iff_same foreign (marks.of_mem a.2 a.2)).mpr (.refl a.1)
    · intro a b h
      have same := (equal_iff_same foreign (marks.of_mem a.2 b.2)).mp h
      exact (equal_iff_same foreign (marks.of_mem b.2 a.2)).mpr same.symm
    · intro a b c h h'
      have first := (equal_iff_same foreign (marks.of_mem a.2 b.2)).mp h
      have second := (equal_iff_same foreign (marks.of_mem b.2 c.2)).mp h'
      exact (equal_iff_same foreign (marks.of_mem a.2 c.2)).mpr (first.trans second)
  · intro a _ b _
    refine ⟨differs_eq_not_equal a b, ?_, ?_, ?_⟩
    · intro apart
      exact equal_of_decline foreign ((answer_eq_none_iff foreign).mpr apart)
    · intro own hown
      have declines : a.answer b = none ↔ b.kind? ≠ some own := by
        rw [answer_eq_none_iff foreign, ne_eq, sort_eq_iff_of_kind hown]
      refine ⟨declines, ?_⟩
      intro kinds
      cases answered : a.answer b with
      | none => exact absurd kinds (declines.mp answered)
      | some verdict => rw [equal_of_answer answered]
    · intro identical one
      have equal := equalOr_eq_equal foreign one a b
      refine ⟨equal, ?_⟩
      rw [differsOr_eq_not_equalOr, equal, differs_eq_not_equal]

/-- The kinds of the usual foreign values. -/
inductive ForeignKind where
  | text
  | number
  | nothing

def foreignKind : Foreign → ForeignKind
  | .text _ => .text
  | .number _ => .number
  | .nothing => .nothing

theorem foreign_byKindAndValue : Outside.ByKindAndValue foreignKind where
  declines x y := by
    cases x <;> cases y <;> simp [Outside.answer, Foreign.answer, foreignKind]
  equal x y := by
    cases x <;> cases y <;> simp [Outside.answer, Foreign.answer]

/-- A row that holds one text twice. -/
def rowOfOne : Node :=
  ⟨1, .element { name := "t", attributes := .ofPairs [("id", "a"), ("class", "b")] },
    [⟨0, .text "t", []⟩, ⟨0, .text "t", []⟩]⟩

/-- A row that holds this text and a copy of it, with its attributes in another order. -/
def rowOfTwo : Node :=
  ⟨2, .element { name := "t", attributes := .ofPairs [("class", "b"), ("id", "a")] },
    [⟨0, .text "t", []⟩, ⟨3, .text "t", []⟩]⟩

/-- Values of all kinds that look alike. -/
def lookalikes : List Value :=
  [.node rowOfOne, .node rowOfTwo, .node ⟨0, .text "t", []⟩, .content (.text "t"),
    .content (.comment "t"), .content (.element { name := "t" }), .tag { name := "t" },
    .foreign (.text "t")]

theorem lookalikes_equal_within_kinds :
    MarksAgree lookalikes ∧ (node (φ := Foreign) rowOfTwo).equal (node rowOfOne) = true ∧
      (content (φ := Foreign) (.text "t")).equal (foreign (.text "t")) = false ∧
      (tag (φ := Foreign) { name := "t" }).answer (content (.element { name := "t" })) = none := by
  have marks : MarksAgree lookalikes := by
    have trees : lookalikes.filterMap node? = [rowOfOne, rowOfTwo, ⟨0, .text "t", []⟩] := rfl
    rw [MarksAgree, trees]
    simp [Node.MarksNameTrees, rowOfOne, rowOfTwo, Node.preorderAll, Node.preorder]
  obtain ⟨equivalence, kinds⟩ := equal_equivalence_within_kinds foreign_byKindAndValue marks
  have forth : (node (φ := Foreign) rowOfOne).equal (node rowOfTwo) = true := by decide +kernel
  have back := equivalence.symm (x := ⟨node rowOfOne, by simp [lookalikes]⟩)
    (y := ⟨node rowOfTwo, by simp [lookalikes]⟩) forth
  obtain ⟨_, apart, _⟩ := kinds (content (.text "t")) (by simp [lookalikes])
    (foreign (.text "t")) (by simp [lookalikes])
  obtain ⟨_, _, answers, _⟩ := kinds (tag { name := "t" }) (by simp [lookalikes])
    (content (.element { name := "t" })) (by simp [lookalikes])
  exact ⟨marks, back, apart (by simp [sort]), (answers .tag rfl).1.mpr (by simp [kind?, Content.kind])⟩

end Value

end MarkupTree
