import MnCommon.Trees.Travel
import MnCommon.Tries.Prefix

/-! Patricia tries: binary tries without the nodes that would have one child only.
The labels of the tree tell the prefixes of its nodes. -/

namespace MnCommon.Tries

open Trees Prefix

def sideOf (digit : Bool) : Side := if digit then .right else .left

def digitOf : Side → Bool
  | .left => false
  | .right => true

@[simp] theorem sideOf_digitOf (side : Side) : sideOf (digitOf side) = side := by
  cases side <;> rfl

@[simp] theorem digitOf_sideOf (digit : Bool) : digitOf (sideOf digit) = digit := by
  cases digit <;> rfl

@[simp] theorem digitOf_opposite (side : Side) : digitOf side.opposite = !digitOf side := by
  cases side <;> rfl

@[simp] theorem sideOf_not (digit : Bool) : sideOf (!digit) = (sideOf digit).opposite := by
  cases digit <;> rfl

/-- The side on which a key lies below a prefix that covers it. -/
def nextSide (key : Nat) (p : Prefix) : Side := sideOf (cut key (p.free - 1)).side

/-- Two keys part at the first digit in which they differ. -/
theorem nextSide_opposite {x y level : Nat} (deep : 0 < level) (agree : x / 2 ^ level = y / 2 ^ level)
    (part : x / 2 ^ (level - 1) ≠ y / 2 ^ (level - 1)) :
    nextSide x (cut x level) = (nextSide y (cut y level)).opposite := by
  have last : level - 1 + 1 = level := Nat.sub_add_cancel deep
  have apart : (cut x (level - 1)).side ≠ (cut y (level - 1)).side := by
    intro same
    have first := (cut_child x (level - 1) _).mpr rfl
    have second := (cut_child y (level - 1) _).mpr rfl
    rw [last] at first second
    have above : cut x level = cut y level := congrArg (Prefix.mk · level) agree
    rw [above, same, second] at first
    exact part (congrArg bits first).symm
  rw [nextSide, nextSide, ← sideOf_not]
  exact congrArg sideOf (Bool.eq_not_of_ne apart)

/-- `p` is the longest prefix that all keys have in common. -/
structure LongestCommon (p : Prefix) (keys : List Nat) : Prop where
  common : ∀ k ∈ keys, p.Covers k
  longest : ∀ q : Prefix, (∀ k ∈ keys, q.Covers k) → p.free ≤ q.free

section Shape

variable {L : Type} (spot : L → Prefix)

/-- A label without free digits stands for a key. -/
def isKey (v : L) : Bool := (spot v).free = 0

/-- The prefix at the root of a tree lies below `p`. -/
def Hangs (p : Prefix) : BinaryTree L → Prop
  | .nil => False
  | .node v _ _ => Below (spot v) p

def Patricia : BinaryTree L → Prop
  | .nil => True
  | .node v l r =>
      (if isKey spot v then l = .nil ∧ r = .nil
        else Hangs spot ((spot v).child false) l ∧ Hangs spot ((spot v).child true) r) ∧
        Patricia l ∧ Patricia r

/-- The keys of a tree from left to right. -/
def keysOf (t : BinaryTree L) : List Nat := (leavesAlong (isKey spot) .right t).map fun v => (spot v).bits

/-- Every node but the keys has two children, bears the longest prefix that the keys
below it have in common, and parts them by the next digit. -/
def Compressed : BinaryTree L → Prop
  | .nil => True
  | .node v l r =>
      (if isKey spot v then l = .nil ∧ r = .nil
        else (l ≠ .nil ∧ r ≠ .nil) ∧ LongestCommon (spot v) (keysOf spot (.node v l r)) ∧
          (∀ k ∈ keysOf spot l, ((spot v).child false).Covers k) ∧
          ∀ k ∈ keysOf spot r, ((spot v).child true).Covers k) ∧
        Compressed l ∧ Compressed r

variable {spot} {p : Prefix} {t l r u sibling : BinaryTree L} {v w : L} {side : Side} {key : Nat} {f : Frame L}
  {path : List (Frame L)}

theorem isKey_iff : isKey spot v = true ↔ (spot v).free = 0 := by
  rw [isKey, decide_eq_true_iff]

theorem not_isKey_iff : ¬ isKey spot v = true ↔ 0 < (spot v).free := by
  rw [isKey_iff, Nat.pos_iff_ne_zero]

theorem below_child (deep : 0 < p.free) (digit : Bool) : Below (p.child digit) p := by
  apply Below.of_parent
  rw [parent_child deep]
  exact .refl p

theorem Hangs.ne_nil (hangs : Hangs spot p t) : t ≠ .nil := by
  rintro rfl
  exact hangs

theorem Patricia.bare (patricia : Patricia spot (.node v l r)) (here : (spot v).free = 0) : l = .nil ∧ r = .nil := by
  have shape := patricia.1
  rwa [if_pos (isKey_iff.mpr here)] at shape

/-- One of the two subtrees below a prefix with free digits. -/
theorem Patricia.pick (patricia : Patricia spot (.node v l r)) (deep : 0 < (spot v).free) (side : Side) :
    Hangs spot ((spot v).child (digitOf side)) (side.pick l r) := by
  have shape := patricia.1
  rw [if_neg (not_isKey_iff.mpr deep)] at shape
  cases side with
  | left => exact shape.1
  | right => exact shape.2

theorem Patricia.full (patricia : Patricia spot t) : Full (isKey spot) t := by
  induction t with
  | nil => trivial
  | node v l r left right =>
      refine ⟨?_, left patricia.2.1, right patricia.2.2⟩
      have shape := patricia.1
      split
      · rename_i here
        rwa [if_pos here] at shape
      · rename_i here
        rw [if_neg here] at shape
        exact ⟨shape.1.ne_nil, shape.2.ne_nil⟩

/-- All prefixes of a tree lie below the one at which it hangs. -/
theorem Hangs.below (hangs : Hangs spot p t) (patricia : Patricia spot t) (member : v ∈ inorder t) :
    Below (spot v) p := by
  induction t generalizing p with
  | nil => exact hangs.elim
  | node w l r left right =>
      have here : Below (spot w) p := hangs
      have deep : l ≠ .nil ∨ r ≠ .nil → 0 < (spot w).free := by
        intro child
        by_contra leaf
        have none := patricia.bare (Nat.eq_zero_of_not_pos leaf)
        rcases child with some | some
        · exact some none.1
        · exact some none.2
      rcases List.mem_append.mp member with inside | inside
      · have some : l ≠ .nil := by
          rintro rfl
          exact List.not_mem_nil inside
        have lower := left (patricia.pick (deep (.inl some)) .left) patricia.2.1 inside
        exact (lower.trans (below_child (deep (.inl some)) _)).trans here
      · rcases List.mem_cons.mp inside with rfl | inside
        · exact here
        · have some : r ≠ .nil := by
            rintro rfl
            exact List.not_mem_nil inside
          have lower := right (patricia.pick (deep (.inr some)) .right) patricia.2.2 inside
          exact (lower.trans (below_child (deep (.inr some)) _)).trans here

theorem mem_keysOf : key ∈ keysOf spot t ↔ ∃ v ∈ inorder t, spot v = ⟨key, 0⟩ := by
  simp only [keysOf, List.mem_map, mem_leavesAlong, isKey_iff]
  constructor
  · rintro ⟨v, ⟨inside, bottom⟩, rfl⟩
    refine ⟨v, inside, ?_⟩
    rw [← bottom]
  · rintro ⟨v, inside, same⟩
    refine ⟨v, ⟨inside, ?_⟩, ?_⟩
    · rw [same]
    · rw [same]

theorem Hangs.covers (hangs : Hangs spot p t) (patricia : Patricia spot t) (member : key ∈ keysOf spot t) :
    p.Covers key := by
  rcases mem_keysOf.mp member with ⟨v, inside, same⟩
  apply (hangs.below patricia inside).covers
  rw [same]
  exact (covers_zero rfl key).mpr rfl

theorem keysOf_fork (deep : 0 < (spot v).free) : keysOf spot (.node v l r) = keysOf spot l ++ keysOf spot r := by
  rw [keysOf, leavesAlong_fork _ (not_isKey_iff.mpr deep), List.map_append]
  rfl

theorem keysOf_leaf (bottom : (spot v).free = 0) : keysOf spot (.node v .nil .nil) = [(spot v).bits] := by
  rw [keysOf, leavesAlong_leaf _ (isKey_iff.mpr bottom)]
  rfl

/-- The keys are in order. -/
theorem Patricia.ascending (patricia : Patricia spot t) : (keysOf spot t).Pairwise (· < ·) := by
  induction t with
  | nil => exact .nil
  | node v l r left right =>
      by_cases bottom : (spot v).free = 0
      · rcases patricia.bare bottom with ⟨rfl, rfl⟩
        rw [keysOf_leaf bottom]
        exact List.pairwise_singleton _ _
      · have deep : 0 < (spot v).free := Nat.pos_of_ne_zero bottom
        rw [keysOf_fork deep]
        refine List.pairwise_append.mpr ⟨left patricia.2.1, right patricia.2.2, fun x inside y within => ?_⟩
        have near := (patricia.pick deep .left).covers patricia.2.1 inside
        have far := (patricia.pick deep .right).covers patricia.2.2 within
        exact child_apart true (spot v) near far

theorem Full.exists_key (full : Full (isKey spot) t) (some : t ≠ .nil) : ∃ key, key ∈ keysOf spot t := by
  rcases Trees.Full.exists_leaf full some with ⟨v, inside, bottom⟩
  refine ⟨(spot v).bits, mem_keysOf.mpr ⟨v, inside, ?_⟩⟩
  rw [← isKey_iff.mp bottom]

/-- Two keys that one prefix covers agree in all digits above. -/
theorem Covers.agree {q : Prefix} {x y level : Nat} (first : q.Covers x) (second : q.Covers y)
    (above : q.free ≤ level) : x / 2 ^ level = y / 2 ^ level := by
  have steps : 2 ^ level = 2 ^ q.free * 2 ^ (level - q.free) := by
    rw [← pow_add, Nat.add_sub_cancel' above]
  rw [steps, ← Nat.div_div_eq_div_mul, ← Nat.div_div_eq_div_mul]
  rw [Prefix.Covers] at first second
  rw [first, second]

theorem Patricia.longestCommon (patricia : Patricia spot (.node v l r)) (deep : 0 < (spot v).free) :
    LongestCommon (spot v) (keysOf spot (.node v l r)) := by
  constructor
  · intro k member
    have here : Hangs spot (spot v) (.node v l r) := Below.refl (spot v)
    exact here.covers patricia member
  · intro q common
    by_contra lower
    rcases Full.exists_key patricia.2.1.full (patricia.pick deep .left).ne_nil with ⟨x, inside⟩
    rcases Full.exists_key patricia.2.2.full (patricia.pick deep .right).ne_nil with ⟨y, within⟩
    rw [keysOf_fork deep] at common
    have same := Covers.agree (common x (List.mem_append_left _ inside)) (common y (List.mem_append_right _ within))
      (Nat.le_sub_one_of_lt (Nat.lt_of_not_le lower))
    have near : x / 2 ^ ((spot v).free - 1) = 2 * (spot v).bits + 0 :=
      (patricia.pick deep .left).covers patricia.2.1 inside
    have far : y / 2 ^ ((spot v).free - 1) = 2 * (spot v).bits + 1 :=
      (patricia.pick deep .right).covers patricia.2.2 within
    omega

theorem Patricia.compressed (patricia : Patricia spot t) : Compressed spot t := by
  induction t with
  | nil => trivial
  | node v l r left right =>
      refine ⟨?_, left patricia.2.1, right patricia.2.2⟩
      split
      · rename_i here
        exact patricia.bare (isKey_iff.mp here)
      · rename_i here
        have deep := not_isKey_iff.mp here
        exact ⟨⟨(patricia.pick deep .left).ne_nil, (patricia.pick deep .right).ne_nil⟩, patricia.longestCommon deep,
          fun k => (patricia.pick deep .left).covers patricia.2.1,
          fun k => (patricia.pick deep .right).covers patricia.2.2⟩

/-- A node above the open position, seen from there. -/
theorem patricia_attach_iff (some : t ≠ .nil) :
    Patricia spot (Frame.attach ⟨side, v, sibling⟩ t) ↔
      (0 < (spot v).free ∧ Hangs spot ((spot v).child (digitOf side)) t ∧
        Hangs spot ((spot v).child (!digitOf side)) sibling) ∧ Patricia spot t ∧ Patricia spot sibling := by
  rw [attach_eq_node]
  constructor
  · intro patricia
    have deep : 0 < (spot v).free := by
      by_contra bottom
      have bare := patricia.bare (Nat.eq_zero_of_not_pos bottom)
      cases side with
      | left => exact some bare.1
      | right => exact some bare.2
    cases side with
    | left => exact ⟨⟨deep, patricia.pick deep .left, patricia.pick deep .right⟩, patricia.2.1, patricia.2.2⟩
    | right => exact ⟨⟨deep, patricia.pick deep .right, patricia.pick deep .left⟩, patricia.2.2, patricia.2.1⟩
  · rintro ⟨⟨deep, near, far⟩, inner, other⟩
    rw [Patricia, if_neg (not_isKey_iff.mpr deep)]
    cases side with
    | left => exact ⟨⟨near, far⟩, inner, other⟩
    | right => exact ⟨⟨far, near⟩, other, inner⟩

theorem Patricia.plug (patricia : Patricia spot (plug path t)) (some : t ≠ .nil) : Patricia spot t := by
  induction path generalizing t with
  | nil => exact patricia
  | cons f path ih => exact ((patricia_attach_iff some).mp (ih patricia (attach_ne_nil f t))).2.1

/-- The nearest node above the open position. -/
theorem Patricia.ancestor (patricia : Patricia spot (Trees.plug (f :: path) t)) (some : t ≠ .nil) :
    0 < (spot f.label).free ∧ Hangs spot ((spot f.label).child (digitOf f.side)) t ∧
      Hangs spot ((spot f.label).child (!digitOf f.side)) f.sibling ∧ Patricia spot f.sibling := by
  have whole : Patricia spot (Trees.plug path (f.attach t)) := patricia
  have here := whole.plug (attach_ne_nil f t)
  rcases (patricia_attach_iff some).mp here with ⟨⟨deep, near, far⟩, -, other⟩
  exact ⟨deep, near, far, other⟩

/-- What comes in the place of a subtree must hang below the same child. -/
theorem Patricia.replace (patricia : Patricia spot (Trees.plug (f :: path) t)) (some : t ≠ .nil)
    (inner : Patricia spot u) (hangs : Hangs spot ((spot f.label).child (digitOf f.side)) u) :
    Patricia spot (Trees.plug (f :: path) u) := by
  induction path generalizing f t u with
  | nil =>
      rcases (patricia_attach_iff some).mp patricia with ⟨⟨deep, -, far⟩, -, other⟩
      exact (patricia_attach_iff hangs.ne_nil).mpr ⟨⟨deep, hangs, far⟩, inner, other⟩
  | cons g path ih =>
      have outer : Patricia spot (Trees.plug (g :: path) (f.attach t)) := patricia
      rcases patricia.ancestor some with ⟨deep, -, far, other⟩
      have here : Patricia spot (f.attach u) :=
        (patricia_attach_iff hangs.ne_nil).mpr ⟨⟨deep, hangs, far⟩, inner, other⟩
      have above := (outer.ancestor (attach_ne_nil f t)).2.1
      refine ih outer (attach_ne_nil f t) here ?_
      rcases f with ⟨side, v, sibling⟩
      cases side with
      | left => exact above
      | right => exact above

/-- The search for a key leads to the open position. -/
def Towards (spot : L → Prefix) (key : Nat) (path : List (Frame L)) : Prop :=
  ∀ f ∈ path, (spot f.label).Covers key ∧ f.side = nextSide key (spot f.label)

/-- A key of the tree lies where the search for it leads. -/
theorem Towards.mem_keysOf (towards : Towards spot key path) (patricia : Patricia spot (Trees.plug path t))
    (some : t ≠ .nil) (member : key ∈ keysOf spot (Trees.plug path t)) : key ∈ keysOf spot t := by
  induction path generalizing t with
  | nil => exact member
  | cons f path ih =>
      have within := ih (fun g above => towards g (List.mem_cons_of_mem f above)) patricia (attach_ne_nil f t) member
      rcases patricia.ancestor some with ⟨deep, near, far, other⟩
      rcases towards f List.mem_cons_self with ⟨covers, same⟩
      have apart : key ∉ keysOf spot f.sibling := by
        intro inside
        have wrong := ((covers_child_iff deep key _).mp (far.covers other inside)).2
        rw [same, nextSide, digitOf_sideOf] at wrong
        exact absurd wrong (Bool.self_ne_not _)
      rcases Tries.mem_keysOf.mp within with ⟨v, inside, here⟩
      rcases f with ⟨side, w, sibling⟩
      have parts : v = w ∨ v ∈ inorder sibling ∨ v ∈ inorder t := by
        cases side with
        | left =>
            simp only [Frame.attach, inorder_node, List.mem_append, List.mem_cons] at inside
            tauto
        | right =>
            simp only [Frame.attach, inorder_node, List.mem_append, List.mem_cons] at inside
            tauto
      rcases parts with rfl | beside | inner
      · rw [here] at deep
        exact absurd deep (Nat.lt_irrefl 0)
      · exact absurd (Tries.mem_keysOf.mpr ⟨v, beside, here⟩) apart
      · exact Tries.mem_keysOf.mpr ⟨v, inner, here⟩

/-- Where the search for a key ends: at a key, or at a prefix that does not cover it. -/
theorem Towards.found_iff (towards : Towards spot key path) (patricia : Patricia spot (Trees.plug path (.node v l r)))
    (ends : (spot v).free = 0 ∨ ¬ (spot v).Covers key) :
    key ∈ keysOf spot (Trees.plug path (.node v l r)) ↔ spot v = ⟨key, 0⟩ := by
  constructor
  · intro member
    have inner := patricia.plug nofun
    have inside := towards.mem_keysOf patricia nofun member
    have here : Hangs spot (spot v) (.node v l r) := Below.refl (spot v)
    have covers := here.covers inner inside
    have bottom := ends.resolve_right (not_not.mpr covers)
    rw [covers.eq_cut, bottom, cut_zero]
  · intro same
    exact Tries.mem_keysOf.mpr ⟨v, (mem_inorder_iff v _).mpr ⟨path, l, r, rfl⟩, same⟩

/-- A key and the prefix that a subtree bears part just below `level`. -/
structure Parts (key : Nat) (p : Prefix) (level : Nat) : Prop where
  below : p.free < level
  agree : key / 2 ^ level = p.bits / 2 ^ (level - p.free)
  part : key / 2 ^ (level - 1) ≠ p.bits / 2 ^ (level - 1 - p.free)

/-- A fork of a new key and an old subtree. -/
def fork (key : Nat) (w x : L) (t : BinaryTree L) (level : Nat) : BinaryTree L :=
  Frame.attach ⟨(nextSide key (cut key level)).opposite, w, .node x .nil .nil⟩ t

/-- A fork seen from the new key. -/
theorem fork_flip {x : L} {level : Nat} :
    fork key w x t level = Frame.attach ⟨nextSide key (cut key level), w, t⟩ (.node x .nil .nil) := by
  rw [fork, attach_eq_node, attach_eq_node]
  cases nextSide key (cut key level) with
  | left => rfl
  | right => rfl

theorem Parts.fork_patricia {x : L} {level : Nat} (parts : Parts key (spot v) level)
    (patricia : Patricia spot (.node v l r)) (branch : spot w = cut key level) (leaf : spot x = ⟨key, 0⟩) :
    Patricia spot (fork key w x (.node v l r) level) := by
  have deep : 0 < level := Nat.zero_lt_of_lt parts.below
  have bare : Patricia spot (.node x .nil .nil) := by
    refine ⟨?_, trivial, trivial⟩
    rw [if_pos (isKey_iff.mpr (congrArg free leaf))]
    exact ⟨rfl, rfl⟩
  have some : BinaryTree.node v l r ≠ .nil := nofun
  rw [fork, patricia_attach_iff some, branch, digitOf_opposite, Bool.not_not]
  refine ⟨⟨deep, ?_, ?_⟩, patricia, bare⟩
  · rw [nextSide, digitOf_sideOf]
    exact below_other_child parts.below parts.agree parts.part
  · change Below (spot x) _
    rw [leaf, nextSide, digitOf_sideOf]
    exact below_of_covers ((covers_child_iff deep key _).mpr ⟨cut_covers key level, rfl⟩)

theorem below_cut (key : Nat) {low high : Nat} (order : low ≤ high) : Below (cut key low) (cut key high) := by
  have reach := below_level (cut key low) order
  have same : (cut key low).bits / 2 ^ (high - low) = key / 2 ^ high := by
    rw [cut, Nat.div_div_eq_div_mul, ← pow_add, Nat.add_sub_cancel' order]
  change Below _ ⟨key / 2 ^ high, high⟩
  rw [← same]
  exact reach

/-- A prefix and those above it have their leading digits in common. -/
theorem Below.div {x q : Prefix} {level : Nat} (below : Below x q) (above : q.free ≤ level) :
    x.bits / 2 ^ (level - x.free) = q.bits / 2 ^ (level - q.free) := by
  rcases below with ⟨low, climb⟩
  rw [iterate_parent] at climb
  have bits : x.bits / 2 ^ (q.free - x.free) = q.bits := congrArg Prefix.bits climb
  have steps : level - x.free = (q.free - x.free) + (level - q.free) := by omega
  rw [steps, pow_add, ← Nat.div_div_eq_div_mul, bits]

/-- The new fork hangs where the old subtree hung. -/
theorem Parts.fork_hangs {x : L} {level : Nat} (parts : Parts key (spot v) level) (hangs : Hangs spot p (.node v l r))
    (covers : p.Covers key) (branch : spot w = cut key level) : Hangs spot p (fork key w x (.node v l r) level) := by
  have order : level ≤ p.free := by
    by_contra high
    have low : p.free ≤ level - 1 := by omega
    apply parts.part
    calc
      key / 2 ^ (level - 1) = key / 2 ^ p.free / 2 ^ (level - 1 - p.free) := by
        rw [Nat.div_div_eq_div_mul, ← pow_add, Nat.add_sub_cancel' low]
      _ = p.bits / 2 ^ (level - 1 - p.free) := by rw [covers]
      _ = (spot v).bits / 2 ^ (level - 1 - (spot v).free) := (Below.div hangs low).symm
  have reach : Below (spot w) p := by
    rw [branch, covers.eq_cut]
    exact below_cut key order
  rw [fork, attach_eq_node]
  exact reach

end Shape

end MnCommon.Tries
