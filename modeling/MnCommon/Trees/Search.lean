import MnCommon.Trees.Zipper

/-! Descending a search tree. The key looked for is given by how it compares
with each label. -/

namespace MnCommon.Trees

variable {L : Type}

/-- The place of a key: the open position it belongs to, or the node that
compares equal. -/
def descend (cut : L → Ordering) (path : List (Frame L)) : BinaryTree L →
    List (Frame L) × BinaryTree L
  | .nil => (path, .nil)
  | .node v l r =>
      match cut v with
      | .lt => descend cut (⟨.left, v, r⟩ :: path) l
      | .gt => descend cut (⟨.right, v, l⟩ :: path) r
      | .eq => (path, .node v l r)

def Ordered (lt : L → L → Prop) (t : BinaryTree L) : Prop := (inorder t).Pairwise lt

/-- Strict search order, node by node. -/
def SearchTree (lt : L → L → Prop) : BinaryTree L → Prop
  | .nil => True
  | .node v l r => (∀ w ∈ inorder l, lt w v) ∧ (∀ w ∈ inorder r, lt v w) ∧
      SearchTree lt l ∧ SearchTree lt r

/-- A way to look up a key that respects the order of the labels. -/
structure Cut (lt : L → L → Prop) (cut : L → Ordering) : Prop where
  below : ∀ v w, lt v w → cut v = .lt → cut w = .lt
  above : ∀ v w, lt v w → cut w = .gt → cut v = .gt
  left : ∀ v w, lt v w → cut v = .eq → cut w = .lt
  right : ∀ v w, lt v w → cut w = .eq → cut v = .gt

/-- The key belongs into the open position. -/
structure Between (cut : L → Ordering) (path : List (Frame L)) : Prop where
  before : ∀ v ∈ before path, cut v = .gt
  after : ∀ v ∈ after path, cut v = .lt

theorem searchTree_iff (lt : L → L → Prop) (transitive : ∀ a b c, lt a b → lt b c → lt a c)
    (t : BinaryTree L) : SearchTree lt t ↔ Ordered lt t := by
  induction t with
  | nil => simp [SearchTree, Ordered]
  | node v l r left right =>
      simp only [SearchTree, left, right, Ordered, inorder_node, List.pairwise_append,
        List.pairwise_cons, List.mem_cons, forall_eq_or_imp]
      constructor
      · rintro ⟨below, above, leftOrdered, rightOrdered⟩
        exact ⟨leftOrdered, ⟨above, rightOrdered⟩, fun a member => ⟨below a member,
          fun b beyond => transitive a v b (below a member) (above b beyond)⟩⟩
      · rintro ⟨leftOrdered, ⟨above, rightOrdered⟩, apart⟩
        exact ⟨fun a member => (apart a member).1, above, leftOrdered, rightOrdered⟩

theorem Between.root (cut : L → Ordering) : Between cut [] := ⟨by simp [Trees.before], by simp [Trees.after]⟩

section Descent

variable {lt : L → L → Prop} {cut : L → Ordering} {path : List (Frame L)} {t : BinaryTree L}

theorem plug_descend (cut : L → Ordering) (path : List (Frame L)) (t : BinaryTree L) :
    plug (descend cut path t).1 (descend cut path t).2 = plug path t := by
  induction t generalizing path with
  | nil => rfl
  | node v l r left right =>
      rw [descend]
      split
      · exact left _
      · exact right _
      · rfl

theorem descend_found {v : L} {l r : BinaryTree L} (found : (descend cut path t).2 = .node v l r) :
    cut v = .eq := by
  induction t generalizing path with
  | nil => cases found
  | node w below above left right =>
      rw [descend] at found
      split at found
      · exact left found
      · exact right found
      · cases found
        assumption

theorem between_descend (respects : Cut lt cut) (ordered : Ordered lt t) (inside : Between cut path) :
    Between cut (descend cut path t).1 := by
  induction t generalizing path with
  | nil => exact inside
  | node v l r left right =>
      simp only [Ordered, inorder_node, List.pairwise_append, List.pairwise_cons] at ordered
      obtain ⟨leftOrdered, ⟨above, rightOrdered⟩, below⟩ := ordered
      rw [descend]
      split
      · rename_i less
        refine left leftOrdered ⟨inside.before, ?_⟩
        intro w member
        simp only [after, List.mem_append, List.mem_cons] at member
        rcases member with (rfl | member) | member
        · exact less
        · exact respects.below v w (above w member) less
        · exact inside.after w member
      · rename_i greater
        refine right rightOrdered ⟨?_, inside.after⟩
        intro w member
        simp only [before, List.mem_append, List.mem_cons, List.not_mem_nil, or_false] at member
        rcases member with member | member | rfl
        · exact inside.before w member
        · exact respects.above w v (below w member v (by simp)) greater
        · exact greater
      · exact inside

theorem Between.ne_eq (inside : Between cut path) (v : L) (member : v ∈ inorder (plug path .nil)) :
    cut v ≠ .eq := by
  simp only [inorder_plug, inorder_nil, List.append_nil, List.mem_append] at member
  rcases member with member | member
  · simp [inside.before v member]
  · simp [inside.after v member]

/-- Descending from the root finds exactly the label that compares equal. -/
theorem descend_iff (respects : Cut lt cut) (ordered : Ordered lt t) (v : L) :
    (∃ l r, (descend cut [] t).2 = .node v l r) ↔ v ∈ inorder t ∧ cut v = .eq := by
  have whole := plug_descend cut [] t
  rw [plug_nil] at whole
  constructor
  · rintro ⟨l, r, found⟩
    refine ⟨?_, descend_found found⟩
    rw [found] at whole
    rw [← whole, inorder_plug]
    simp
  · rintro ⟨member, equal⟩
    rw [← whole] at member ordered
    have inside := between_descend respects (whole ▸ ordered) (Between.root cut)
    cases found : (descend cut [] t).2 with
    | nil =>
        rw [found] at member
        exact absurd equal (inside.ne_eq v member)
    | node w l r =>
        rw [found, inorder_plug] at member
        have here := descend_found found
        simp only [inorder_node, List.mem_append, List.mem_cons] at member
        rw [found, Ordered, inorder_plug] at ordered
        simp only [inorder_node, List.pairwise_append, List.pairwise_cons] at ordered
        rcases member with (member | member | rfl | member) | member
        · simp [inside.before v member] at equal
        · have less := respects.right v w (ordered.1.2.1.2.2 v member w (by simp)) here
          simp [less] at equal
        · exact ⟨l, r, rfl⟩
        · have less := respects.left w v (ordered.1.2.1.2.1.1 v member) here
          simp [less] at equal
        · simp [inside.after v member] at equal

/-- A new label in its place keeps the order. -/
theorem ordered_insert {v : L} (ordered : Ordered lt (plug path .nil)) (inside : Between cut path)
    (larger : ∀ w, cut w = .gt → lt w v) (smaller : ∀ w, cut w = .lt → lt v w) :
    Ordered lt (plug path (.node v .nil .nil)) := by
  simp only [Ordered, inorder_plug, inorder_node, inorder_nil, List.nil_append, List.append_nil,
    List.append_assoc, List.singleton_append] at ordered ⊢
  rw [List.pairwise_append] at ordered ⊢
  obtain ⟨first, last, apart⟩ := ordered
  refine ⟨first, List.pairwise_cons.mpr ⟨fun w member => smaller w (inside.after w member), last⟩, ?_⟩
  intro a member b beyond
  rcases List.mem_cons.mp beyond with rfl | beyond
  · exact larger a (inside.before a member)
  · exact apart a member b beyond

end Descent

end MnCommon.Trees
