import MnCommon.Trees.Zipper

/-! The red-black invariant, for trees and for trees with an open position. -/

namespace MnCommon.Trees

variable {L : Type} (red : L → Bool)

def rootIsRed : BinaryTree L → Bool
  | .nil => false
  | .node v _ _ => red v

def NoRedRed : BinaryTree L → Prop
  | .nil => True
  | .node v l r => (red v = true → rootIsRed red l = false ∧ rootIsRed red r = false) ∧
      NoRedRed l ∧ NoRedRed r

def weight (v : L) : Nat := if red v then 0 else 1

/-- The number of black nodes on a path to a leaf, if all paths agree on it. -/
def blackHeight : BinaryTree L → Option Nat
  | .nil => some 0
  | .node v l r =>
      match blackHeight l, blackHeight r with
      | some m, some n => if m = n then some (m + weight red v) else none
      | _, _ => none

structure RedBlack (t : BinaryTree L) : Prop where
  root : rootIsRed red t = false
  apart : NoRedRed red t
  even : (blackHeight red t).isSome

/-- A subtree that satisfies the invariant but may have a red root. -/
structure Balanced (t : BinaryTree L) (colour : Bool) (height : Nat) : Prop where
  root : rootIsRed red t = colour
  apart : NoRedRed red t
  even : blackHeight red t = some height

/-- An open position that wants a subtree of the given root colour and height. -/
def Hole : List (Frame L) → Bool → Nat → Prop
  | [], colour, _ => colour = false
  | f :: path, colour, height =>
      (red f.label = true → colour = false ∧ rootIsRed red f.sibling = false) ∧
        NoRedRed red f.sibling ∧ blackHeight red f.sibling = some height ∧
        Hole path (red f.label) (height + weight red f.label)

instance decideNoRedRed : (t : BinaryTree L) → Decidable (NoRedRed red t)
  | .nil => inferInstanceAs (Decidable True)
  | .node v l r =>
      have := decideNoRedRed l
      have := decideNoRedRed r
      inferInstanceAs (Decidable ((red v = true → rootIsRed red l = false ∧ rootIsRed red r = false) ∧
        NoRedRed red l ∧ NoRedRed red r))

instance (t : BinaryTree L) : Decidable (RedBlack red t) :=
  decidable_of_iff (rootIsRed red t = false ∧ NoRedRed red t ∧ (blackHeight red t).isSome)
    ⟨fun ⟨root, apart, even⟩ => ⟨root, apart, even⟩, fun ⟨root, apart, even⟩ => ⟨root, apart, even⟩⟩

variable {red}

theorem blackHeight_node (v : L) (l r : BinaryTree L) (n : Nat) :
    blackHeight red (.node v l r) = some n ↔
      ∃ m, blackHeight red l = some m ∧ blackHeight red r = some m ∧ n = m + weight red v := by
  rw [blackHeight]
  cases blackHeight red l with
  | none => simp
  | some m =>
      cases blackHeight red r with
      | none => simp
      | some k =>
          by_cases same : m = k
          · subst same
            simp [eq_comm]
          · simp [same, Ne.symm same]

theorem rootIsRed_attach (f : Frame L) (t : BinaryTree L) :
    rootIsRed red (f.attach t) = red f.label := by
  obtain ⟨side, v, sibling⟩ := f
  cases side <;> rfl

theorem noRedRed_attach (f : Frame L) (t : BinaryTree L) :
    NoRedRed red (f.attach t) ↔
      (red f.label = true → rootIsRed red t = false ∧ rootIsRed red f.sibling = false) ∧
        NoRedRed red f.sibling ∧ NoRedRed red t := by
  obtain ⟨side, v, sibling⟩ := f
  cases side <;> simp only [Frame.attach, NoRedRed] <;> tauto

theorem blackHeight_attach (f : Frame L) (t : BinaryTree L) (n : Nat) :
    blackHeight red (f.attach t) = some n ↔
      ∃ m, blackHeight red t = some m ∧ blackHeight red f.sibling = some m ∧
        n = m + weight red f.label := by
  obtain ⟨side, v, sibling⟩ := f
  cases side
  · exact blackHeight_node v t sibling n
  · rw [Frame.attach, blackHeight_node]
    exact exists_congr fun m => by tauto

theorem balanced_nil (colour : Bool) (height : Nat) :
    Balanced red .nil colour height ↔ colour = false ∧ height = 0 := by
  constructor
  · rintro ⟨rfl, -, even⟩
    exact ⟨rfl, (Option.some.inj even).symm⟩
  · rintro ⟨rfl, rfl⟩
    exact ⟨rfl, trivial, rfl⟩

theorem balanced_attach (f : Frame L) (t : BinaryTree L) (colour : Bool) (height : Nat) :
    Balanced red (f.attach t) colour height ↔
      red f.label = colour ∧ ∃ inner n, Balanced red t inner n ∧
        (red f.label = true → inner = false ∧ rootIsRed red f.sibling = false) ∧
        NoRedRed red f.sibling ∧ blackHeight red f.sibling = some n ∧
        height = n + weight red f.label := by
  constructor
  · rintro ⟨root, apart, even⟩
    rw [rootIsRed_attach] at root
    rw [noRedRed_attach] at apart
    obtain ⟨m, inner, beside, rfl⟩ := (blackHeight_attach f t height).mp even
    exact ⟨root, _, m, ⟨rfl, apart.2.2, inner⟩, apart.1, apart.2.1, beside, rfl⟩
  · rintro ⟨root, inner, n, ⟨rfl, apart, even⟩, colours, beside, level, rfl⟩
    exact ⟨(rootIsRed_attach f t).trans root, (noRedRed_attach f t).mpr ⟨colours, beside, apart⟩,
      (blackHeight_attach f t _).mpr ⟨n, even, level, rfl⟩⟩

theorem redBlack_iff (t : BinaryTree L) :
    RedBlack red t ↔ ∃ n, Balanced red t false n := by
  constructor
  · rintro ⟨root, apart, even⟩
    obtain ⟨n, same⟩ := Option.isSome_iff_exists.mp even
    exact ⟨n, root, apart, same⟩
  · rintro ⟨n, root, apart, same⟩
    exact ⟨root, apart, by simp [same]⟩

/-- The invariant of a tree, seen from an open position of it. -/
theorem redBlack_plug (path : List (Frame L)) (t : BinaryTree L) :
    RedBlack red (plug path t) ↔ ∃ colour n, Balanced red t colour n ∧ Hole red path colour n := by
  induction path generalizing t with
  | nil =>
      rw [plug_nil, redBlack_iff]
      exact ⟨fun ⟨n, balanced⟩ => ⟨false, n, balanced, rfl⟩,
        fun ⟨_, n, balanced, black⟩ => ⟨n, (show _ = false from black) ▸ balanced⟩⟩
  | cons f path ih =>
      rw [plug, ih]
      constructor
      · rintro ⟨colour, height, balanced, hole⟩
        obtain ⟨rfl, inner, n, below, colours, beside, level, rfl⟩ :=
          (balanced_attach f t colour height).mp balanced
        exact ⟨inner, n, below, colours, beside, level, hole⟩
      · rintro ⟨inner, n, balanced, colours, beside, level, hole⟩
        exact ⟨_, _, (balanced_attach f t _ _).mpr
          ⟨rfl, inner, n, balanced, colours, beside, level, rfl⟩, hole⟩

theorem noRedRed_of_plug (path : List (Frame L)) (t : BinaryTree L)
    (whole : RedBlack red (plug path t)) : NoRedRed red t := by
  obtain ⟨_, _, balanced, _⟩ := (redBlack_plug path t).mp whole
  exact balanced.apart

theorem rootIsRed_map (g : L → L) (same : ∀ v, red (g v) = red v) (t : BinaryTree L) :
    rootIsRed red (t.map g) = rootIsRed red t := by
  cases t with
  | nil => rfl
  | node v l r => exact same v

theorem noRedRed_map (g : L → L) (same : ∀ v, red (g v) = red v) (t : BinaryTree L) :
    NoRedRed red (t.map g) ↔ NoRedRed red t := by
  induction t with
  | nil => rfl
  | node v l r left right =>
      simp only [BinaryTree.map, NoRedRed, same, rootIsRed_map g same, left, right]

theorem blackHeight_map (g : L → L) (same : ∀ v, red (g v) = red v) (t : BinaryTree L) :
    blackHeight red (t.map g) = blackHeight red t := by
  induction t with
  | nil => rfl
  | node v l r left right => simp only [BinaryTree.map, blackHeight, weight, same, left, right]

/-- The invariant only looks at the colours. -/
theorem redBlack_map (g : L → L) (same : ∀ v, red (g v) = red v) (t : BinaryTree L) :
    RedBlack red (t.map g) ↔ RedBlack red t := by
  constructor
  · rintro ⟨root, apart, even⟩
    exact ⟨(rootIsRed_map g same t).symm.trans root, (noRedRed_map g same t).mp apart,
      blackHeight_map g same t ▸ even⟩
  · rintro ⟨root, apart, even⟩
    exact ⟨(rootIsRed_map g same t).trans root, (noRedRed_map g same t).mpr apart,
      (blackHeight_map g same t).symm ▸ even⟩

theorem eq_nil_of_balanced {t : BinaryTree L} (balanced : Balanced red t false 0) : t = .nil := by
  cases t with
  | nil => rfl
  | node v l r =>
      obtain ⟨m, -, -, height⟩ := (blackHeight_node v l r 0).mp balanced.even
      have black : red v = false := balanced.root
      simp [weight, black] at height

/-- A position below an ancestor wants one height only. -/
theorem Hole.height_unique {f : Frame L} {path : List (Frame L)} {c d : Bool} {m n : Nat}
    (first : Hole red (f :: path) c m) (second : Hole red (f :: path) d n) : m = n :=
  Option.some.inj (first.2.2.1.symm.trans second.2.2.1)

/-- A black subtree fits wherever a red one of its height does. -/
theorem Hole.black {path : List (Frame L)} {colour : Bool} {height : Nat}
    (hole : Hole red path colour height) : Hole red path false height := by
  cases path with
  | nil => rfl
  | cons f path => exact ⟨fun same => ⟨rfl, (hole.1 same).2⟩, hole.2⟩

end MnCommon.Trees
