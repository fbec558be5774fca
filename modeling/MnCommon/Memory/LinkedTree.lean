import MnCommon.Memory.Heap
import MnCommon.Trees.Zipper

/-! Binary trees laid out on a heap with child and parent pointers. -/

namespace MnCommon.Memory

open Trees

/-- Where a record keeps its links, at which address the record of a label
lies, and what the label says about the rest of the record. -/
structure Layout (N L : Type) where
  parent : N → Ptr
  child : Side → N → Ptr
  addr : L → Addr
  holds : L → N → Prop

namespace Layout

variable {N L : Type} (K : Layout N L)

def root : BinaryTree L → Ptr
  | .nil => none
  | .node v _ _ => some (K.addr v)

def top : List (Frame L) → Ptr
  | [] => none
  | f :: _ => some (K.addr f.label)

/-- The record of an ancestor, towards the open position and away from it. -/
structure Record (h : Heap N) (v : L) (parent : Ptr) (side : Side) (near far : Ptr) (n : N) :
    Prop where
  cell : h.lookup (K.addr v) = some n
  parent_eq : K.parent n = parent
  near_eq : K.child side n = near
  far_eq : K.child side.opposite n = far
  holds : K.holds v n

def Subtree (h : Heap N) : Ptr → BinaryTree L → Prop
  | _, .nil => True
  | parent, .node v l r =>
      (∃ n, K.Record h v parent .left (K.root l) (K.root r) n) ∧
        Subtree h (some (K.addr v)) l ∧ Subtree h (some (K.addr v)) r

def Opened (h : Heap N) : List (Frame L) → Ptr → Prop
  | [], _ => True
  | f :: path, hole =>
      (∃ n, K.Record h f.label (K.top path) f.side hole (K.root f.sibling) n) ∧
        K.Subtree h (some (K.addr f.label)) f.sibling ∧ Opened h path (some (K.addr f.label))

def addrs (t : BinaryTree L) : List Addr := (inorder t).map K.addr

def pathAddrs (path : List (Frame L)) : List Addr := (before path ++ after path).map K.addr

@[simp] theorem root_nil : K.root .nil = none := rfl

@[simp] theorem root_node (v : L) (l r : BinaryTree L) :
    K.root (.node v l r) = some (K.addr v) := rfl

@[simp] theorem root_attach (f : Frame L) (t : BinaryTree L) :
    K.root (f.attach t) = some (K.addr f.label) := by
  obtain ⟨side, v, sibling⟩ := f
  cases side <;> rfl

@[simp] theorem top_nil : K.top [] = none := rfl

@[simp] theorem top_cons (f : Frame L) (path : List (Frame L)) :
    K.top (f :: path) = some (K.addr f.label) := rfl

@[simp] theorem addrs_nil : K.addrs .nil = [] := rfl

@[simp] theorem addrs_node (v : L) (l r : BinaryTree L) :
    K.addrs (.node v l r) = K.addrs l ++ K.addr v :: K.addrs r := by
  simp [addrs]

@[simp] theorem subtree_nil (h : Heap N) (parent : Ptr) : K.Subtree h parent .nil := trivial

theorem root_mem (t : BinaryTree L) (a : Addr) (atRoot : K.root t = some a) : a ∈ K.addrs t := by
  cases t with
  | nil => simp at atRoot
  | node v l r =>
      have same := Option.some.inj atRoot
      simp [same]

theorem mem_addrs_attach (f : Frame L) (t : BinaryTree L) (a : Addr) :
    a ∈ K.addrs (f.attach t) ↔ a = K.addr f.label ∨ a ∈ K.addrs f.sibling ∨ a ∈ K.addrs t := by
  obtain ⟨side, v, sibling⟩ := f
  cases side <;> simp only [Frame.attach, addrs_node, List.mem_append, List.mem_cons] <;> tauto

theorem nodup_addrs_attach (f : Frame L) (t : BinaryTree L) :
    (K.addrs (f.attach t)).Nodup ↔ K.addr f.label ∉ K.addrs f.sibling ∧
      K.addr f.label ∉ K.addrs t ∧ (K.addrs f.sibling).Nodup ∧ (K.addrs t).Nodup ∧
      ∀ a ∈ K.addrs f.sibling, a ∉ K.addrs t := by
  obtain ⟨side, v, sibling⟩ := f
  cases side
  · simp only [Frame.attach, addrs_node, List.nodup_append, List.nodup_cons, List.mem_cons]
    grind
  · simp only [Frame.attach, addrs_node, List.nodup_append, List.nodup_cons, List.mem_cons]
    grind

theorem addrs_plug_eq (path : List (Frame L)) (t : BinaryTree L) :
    K.addrs (plug path t) = (before path).map K.addr ++ (K.addrs t ++ (after path).map K.addr) := by
  simp [addrs, inorder_plug]

theorem addrs_plug (path : List (Frame L)) (t : BinaryTree L) :
    (K.addrs (plug path t)).Perm (K.pathAddrs path ++ K.addrs t) := by
  simp only [addrs, pathAddrs, inorder_plug, ← List.map_append]
  apply List.Perm.map
  rw [List.append_assoc, List.append_assoc]
  exact List.Perm.append_left _ List.perm_append_comm

theorem mem_addrs_plug (path : List (Frame L)) (t : BinaryTree L) (a : Addr) :
    a ∈ K.addrs (plug path t) ↔ a ∈ K.pathAddrs path ∨ a ∈ K.addrs t := by
  rw [(K.addrs_plug path t).mem_iff, List.mem_append]

theorem mem_pathAddrs_cons (f : Frame L) (path : List (Frame L)) (a : Addr) :
    a ∈ K.pathAddrs (f :: path) ↔
      a = K.addr f.label ∨ a ∈ K.addrs f.sibling ∨ a ∈ K.pathAddrs path := by
  obtain ⟨side, v, sibling⟩ := f
  cases side
  · simp only [pathAddrs, addrs, before, after, List.map_append, List.map_cons, List.mem_append,
      List.mem_cons]
    tauto
  · simp only [pathAddrs, addrs, before, after, List.map_append, List.map_cons, List.map_nil,
      List.mem_append, List.mem_cons, List.not_mem_nil, or_false]
    tauto

theorem distinct_plug (path : List (Frame L)) (t : BinaryTree L) :
    (K.addrs (plug path t)).Nodup ↔ (K.pathAddrs path).Nodup ∧ (K.addrs t).Nodup ∧
      ∀ a ∈ K.pathAddrs path, a ∉ K.addrs t := by
  rw [(K.addrs_plug path t).nodup_iff, List.nodup_append]
  refine and_congr_right fun _ => and_congr_right fun _ => ?_
  exact ⟨fun apart a outer inner => apart a outer a inner rfl,
    fun apart a outer b inner same => apart a outer (same ▸ inner)⟩

theorem nodup_pathAddrs_cons (f : Frame L) (path : List (Frame L))
    (distinct : (K.pathAddrs (f :: path)).Nodup) :
    K.addr f.label ∉ K.addrs f.sibling ∧ K.addr f.label ∉ K.pathAddrs path := by
  have opened := (K.distinct_plug (f :: path) .nil).mpr ⟨distinct, List.nodup_nil, by simp⟩
  obtain ⟨_, inner, apart⟩ := (K.distinct_plug path (f.attach .nil)).mp opened
  refine ⟨((K.nodup_addrs_attach f .nil).mp inner).1, fun outer => apart _ outer ?_⟩
  simp [K.mem_addrs_attach]

theorem root_plug_cons (f : Frame L) (path : List (Frame L)) (t u : BinaryTree L) :
    K.root (plug (f :: path) t) = K.root (plug (f :: path) u) := by
  induction path generalizing f t u with
  | nil => exact (K.root_attach f t).trans (K.root_attach f u).symm
  | cons g path ih => exact ih g (f.attach t) (f.attach u)

theorem root_plug_congr (path : List (Frame L)) {t u : BinaryTree L}
    (same : K.root u = K.root t) : K.root (plug path u) = K.root (plug path t) := by
  cases path with
  | nil => exact same
  | cons f path => exact K.root_plug_cons f path u t

theorem subtree_attach (h : Heap N) (parent : Ptr) (f : Frame L) (t : BinaryTree L) :
    K.Subtree h parent (f.attach t) ↔
      (∃ n, K.Record h f.label parent f.side (K.root t) (K.root f.sibling) n) ∧
        K.Subtree h (some (K.addr f.label)) f.sibling ∧
        K.Subtree h (some (K.addr f.label)) t := by
  obtain ⟨side, v, sibling⟩ := f
  cases side
  · simp only [Frame.attach, Subtree]
    tauto
  · have mirror : ∀ n, K.Record h v parent .left (K.root sibling) (K.root t) n ↔
        K.Record h v parent .right (K.root t) (K.root sibling) n :=
      fun n => ⟨fun m => ⟨m.cell, m.parent_eq, m.far_eq, m.near_eq, m.holds⟩,
        fun m => ⟨m.cell, m.parent_eq, m.far_eq, m.near_eq, m.holds⟩⟩
    simp only [Frame.attach, Subtree, mirror]

theorem mem_addrs_cons (f : Frame L) (path : List (Frame L)) (t : BinaryTree L) (a : Addr) :
    a ∈ K.addrs (plug (f :: path) t) ↔ a ∈ K.pathAddrs path ∨ a = K.addr f.label ∨
      a ∈ K.addrs f.sibling ∨ a ∈ K.addrs t := by
  rw [plug, mem_addrs_plug, mem_addrs_attach]

/-- Opening a tree splits its representation at the open position. -/
theorem subtree_plug (h : Heap N) (path : List (Frame L)) (t : BinaryTree L) :
    K.Subtree h none (plug path t) ↔
      K.Opened h path (K.root t) ∧ K.Subtree h (K.top path) t := by
  induction path generalizing t with
  | nil => simp [Opened]
  | cons f path ih =>
      rw [plug, ih, root_attach, subtree_attach]
      simp only [top_cons, Opened]
      tauto

theorem Record.frame {h next : Heap N} {v : L} {parent near far : Ptr} {side : Side} {n : N}
    (record : K.Record h v parent side near far n)
    (same : next.lookup (K.addr v) = h.lookup (K.addr v)) :
    K.Record next v parent side near far n :=
  { record with cell := same.trans record.cell }

theorem subtree_frame {h next : Heap N} {parent : Ptr} {t : BinaryTree L}
    (same : ∀ a ∈ K.addrs t, next.lookup a = h.lookup a) (tree : K.Subtree h parent t) :
    K.Subtree next parent t := by
  induction t generalizing parent with
  | nil => trivial
  | node v l r left right =>
      simp only [addrs_node, List.mem_append, List.mem_cons] at same
      obtain ⟨⟨n, record⟩, below, above⟩ := tree
      exact ⟨⟨n, record.frame K (same _ (Or.inr (Or.inl rfl)))⟩,
        left (fun a member => same a (Or.inl member)) below,
        right (fun a member => same a (Or.inr (Or.inr member))) above⟩

theorem opened_frame {h next : Heap N} {path : List (Frame L)} {hole : Ptr}
    (same : ∀ a ∈ K.pathAddrs path, next.lookup a = h.lookup a) (outer : K.Opened h path hole) :
    K.Opened next path hole := by
  induction path generalizing hole with
  | nil => trivial
  | cons f path ih =>
      simp only [mem_pathAddrs_cons] at same
      obtain ⟨⟨n, record⟩, beside, beyond⟩ := outer
      exact ⟨⟨n, record.frame K (same _ (Or.inl rfl))⟩,
        K.subtree_frame (fun a member => same a (Or.inr (Or.inl member))) beside,
        ih (fun a member => same a (Or.inr (Or.inr member))) beyond⟩

/-- Redirecting the link of the nearest ancestor fills the open position anew. -/
theorem opened_relink {h next : Heap N} {f : Frame L} {path : List (Frame L)} {old new : Ptr}
    {n m : N} (outer : K.Opened h (f :: path) old) (distinct : (K.pathAddrs (f :: path)).Nodup)
    (cell : h.lookup (K.addr f.label) = some n) (changed : next.lookup (K.addr f.label) = some m)
    (parent_same : K.parent m = K.parent n) (near : K.child f.side m = new)
    (far : K.child f.side.opposite m = K.child f.side.opposite n)
    (holds : K.holds f.label n → K.holds f.label m)
    (same : ∀ a ∈ K.pathAddrs (f :: path), a ≠ K.addr f.label → next.lookup a = h.lookup a) :
    K.Opened next (f :: path) new := by
  obtain ⟨⟨k, record⟩, beside, beyond⟩ := outer
  obtain rfl : k = n := Option.some.inj (record.cell.symm.trans cell)
  obtain ⟨apartSibling, apartPath⟩ := K.nodup_pathAddrs_cons f path distinct
  simp only [mem_pathAddrs_cons] at same
  refine ⟨⟨m, changed, parent_same.trans record.parent_eq, near, far.trans record.far_eq,
    holds record.holds⟩, K.subtree_frame ?_ beside, K.opened_frame ?_ beyond⟩
  · intro a member
    exact same a (Or.inr (Or.inl member)) (fun atTop => apartSibling (atTop ▸ member))
  · intro a member
    exact same a (Or.inr (Or.inr member)) (fun atTop => apartPath (atTop ▸ member))

/-- Only the root of a subtree points at the parent. -/
theorem subtree_reparent {h next : Heap N} {parent new : Ptr} {t : BinaryTree L}
    (tree : K.Subtree h parent t) (distinct : (K.addrs t).Nodup)
    (changed : ∀ a n, K.root t = some a → h.lookup a = some n → ∃ m, next.lookup a = some m ∧
      K.parent m = new ∧ (∀ side, K.child side m = K.child side n) ∧
      ∀ v, K.holds v n → K.holds v m)
    (same : ∀ a ∈ K.addrs t, K.root t ≠ some a → next.lookup a = h.lookup a) :
    K.Subtree next new t := by
  cases t with
  | nil => trivial
  | node v l r =>
      obtain ⟨⟨n, record⟩, below, above⟩ := tree
      obtain ⟨m, cell, parent_eq, child_eq, holds⟩ := changed _ n rfl record.cell
      simp only [addrs_node, List.nodup_middle, List.nodup_cons, List.mem_append, not_or] at distinct
      refine ⟨⟨m, cell, parent_eq, (child_eq _).trans record.near_eq,
        (child_eq _).trans record.far_eq, holds v record.holds⟩,
        K.subtree_frame ?_ below, K.subtree_frame ?_ above⟩
      · intro a member
        refine same a (by simp [member]) (fun atRoot => distinct.1.1 ?_)
        rwa [Option.some.inj atRoot]
      · intro a member
        refine same a (by simp [member]) (fun atRoot => distinct.1.2 ?_)
        rwa [Option.some.inj atRoot]

/-- The tree as a walk over the heap finds it. -/
def read (label : Addr → N → L) (h : Heap N) : Nat → Ptr → BinaryTree L
  | _, none => .nil
  | 0, some _ => .nil
  | fuel + 1, some a =>
      match h.lookup a with
      | none => .nil
      | some n => .node (label a n) (read label h fuel (K.child .left n))
          (read label h fuel (K.child .right n))

theorem read_subtree (label : Addr → N → L) (faithful : ∀ v n, K.holds v n → label (K.addr v) n = v)
    {h : Heap N} {parent : Ptr} {t : BinaryTree L} (tree : K.Subtree h parent t) (fuel : Nat)
    (enough : t.numNodes ≤ fuel) : K.read label h fuel (K.root t) = t := by
  induction t generalizing parent fuel with
  | nil => cases fuel <;> rfl
  | node v l r left right =>
      simp only [BinaryTree.numNodes] at enough
      cases fuel with
      | zero => omega
      | succ fuel =>
          obtain ⟨⟨n, record⟩, below, above⟩ := tree
          have near : K.child .left n = K.root l := record.near_eq
          have far : K.child .right n = K.root r := record.far_eq
          rw [root_node, read, record.cell]
          simp only [near, far, faithful v n record.holds]
          rw [left below fuel (by omega), right above fuel (by omega)]

/-- The heap holds the whole tree, each label at an address of its own. -/
structure Represents (h : Heap N) (t : BinaryTree L) : Prop where
  shape : K.Subtree h none t
  distinct : (K.addrs t).Nodup

variable {K}

theorem Represents.empty (h : Heap N) : K.Represents h .nil :=
  ⟨trivial, List.nodup_nil⟩

theorem Represents.focus {h : Heap N} {path : List (Frame L)} {v : L} {l r : BinaryTree L}
    (rep : K.Represents h (plug path (.node v l r))) :
    ∃ n, K.Record h v (K.top path) .left (K.root l) (K.root r) n :=
  ((K.subtree_plug h path _).mp rep.shape).2.1

theorem Represents.ancestor {h : Heap N} {f : Frame L} {path : List (Frame L)} {t : BinaryTree L}
    (rep : K.Represents h (plug (f :: path) t)) :
    ∃ n, K.Record h f.label (K.top path) f.side (K.root t) (K.root f.sibling) n :=
  ((K.subtree_plug h (f :: path) t).mp rep.shape).1.1

/-- A parent tells its two children apart. -/
theorem Represents.side_iff {h : Heap N} {f : Frame L} {path : List (Frame L)} {t : BinaryTree L}
    {n : N} {a : Addr} (rep : K.Represents h (plug (f :: path) t)) (atRoot : K.root t = some a)
    (cell : h.lookup (K.addr f.label) = some n) (side : Side) :
    some a = K.child side n ↔ f.side = side := by
  obtain ⟨k, record⟩ := rep.ancestor
  obtain rfl : k = n := Option.some.inj (record.cell.symm.trans cell)
  have near := record.near_eq.trans atRoot
  have distinct := ((K.distinct_plug path _).mp rep.distinct).2.1
  have apart := ((K.nodup_addrs_attach f t).mp distinct).2.2.2.2
  have far : K.child f.side.opposite k ≠ some a := fun same =>
    apart a (K.root_mem _ _ (record.far_eq.symm.trans same)) (K.root_mem _ _ atRoot)
  constructor
  · intro same
    by_contra other
    have opposite : side = f.side.opposite := by
      cases here : f.side <;> cases side <;> simp_all [Side.opposite]
    exact far (opposite ▸ same.symm)
  · rintro rfl
    exact near.symm

theorem Represents.root_ne {h : Heap N} {f : Frame L} {path : List (Frame L)} {t : BinaryTree L}
    {a : Addr} (rep : K.Represents h (plug (f :: path) t)) (atRoot : K.root t = some a) :
    some a ≠ K.root (plug (f :: path) t) := by
  intro same
  rw [K.root_plug_cons f path t .nil] at same
  have outer := K.root_mem _ _ same.symm
  rw [K.mem_addrs_plug] at outer
  exact ((K.distinct_plug _ _).mp rep.distinct).2.2 a (outer.resolve_right (by simp))
    (K.root_mem _ _ atRoot)

theorem Represents.frame {h next : Heap N} {t : BinaryTree L} (rep : K.Represents h t)
    (same : ∀ a ∈ K.addrs t, next.lookup a = h.lookup a) : K.Represents next t :=
  ⟨K.subtree_frame same rep.shape, rep.distinct⟩

/-- Surgery below an unchanged path. -/
theorem Represents.replace {h next : Heap N} {path : List (Frame L)} {t u : BinaryTree L}
    (rep : K.Represents h (plug path t)) (root_same : K.root u = K.root t)
    (tree : K.Subtree next (K.top path) u) (distinct : (K.addrs u).Nodup)
    (inside : ∀ a ∈ K.addrs u, a ∈ K.addrs t)
    (same : ∀ a, a ∉ K.addrs t → next.lookup a = h.lookup a) :
    K.Represents next (plug path u) := by
  obtain ⟨outer, _⟩ := (K.subtree_plug h path t).mp rep.shape
  obtain ⟨pathDistinct, _, apart⟩ := (K.distinct_plug path t).mp rep.distinct
  constructor
  · rw [K.subtree_plug, root_same]
    exact ⟨K.opened_frame (fun a member => same a (apart a member)) outer, tree⟩
  · exact (K.distinct_plug path u).mpr
      ⟨pathDistinct, distinct, fun a member within => apart a member (inside a within)⟩

/-- A record may change everything but its links, and its label with it. -/
theorem Represents.relabel {h : Heap N} {path : List (Frame L)} {v w : L} {l r : BinaryTree L}
    {n m : N} (rep : K.Represents h (plug path (.node v l r)))
    (cell : h.lookup (K.addr v) = some n) (addr_same : K.addr w = K.addr v)
    (parent_same : K.parent m = K.parent n) (child_same : ∀ side, K.child side m = K.child side n)
    (holds : K.holds v n → K.holds w m) :
    K.Represents (h.insert (K.addr v) m) (plug path (.node w l r)) := by
  obtain ⟨_, ⟨k, record⟩, below, above⟩ := (K.subtree_plug h path _).mp rep.shape
  obtain rfl : k = n := Option.some.inj (record.cell.symm.trans cell)
  have distinct := ((K.distinct_plug path _).mp rep.distinct).2.1
  have apart := distinct
  simp only [addrs_node, List.nodup_middle, List.nodup_cons, List.mem_append, not_or] at apart
  apply rep.replace
  · simp [addr_same]
  · refine ⟨⟨m, ?_, parent_same.trans record.parent_eq, (child_same _).trans record.near_eq,
      (child_same _).trans record.far_eq, holds record.holds⟩, ?_, ?_⟩
    · rw [addr_same, Finmap.lookup_insert]
    · rw [addr_same]
      exact K.subtree_frame (fun a member => Finmap.lookup_insert_of_ne h
        (fun atRoot => apart.1.1 (atRoot ▸ member))) below
    · rw [addr_same]
      exact K.subtree_frame (fun a member => Finmap.lookup_insert_of_ne h
        (fun atRoot => apart.1.2 (atRoot ▸ member))) above
  · simpa [addr_same] using distinct
  · simp [addr_same]
  · intro a outside
    exact Finmap.lookup_insert_of_ne h (fun atRoot => outside (by simp [atRoot]))

/-- A new leaf in an open position below an ancestor. -/
theorem Represents.graft {h : Heap N} {f : Frame L} {path : List (Frame L)} {v : L} {n m k : N}
    (rep : K.Represents h (plug (f :: path) .nil)) (fresh : K.addr v ∉ K.addrs (plug (f :: path) .nil))
    (cell : h.lookup (K.addr f.label) = some n) (parent_same : K.parent m = K.parent n)
    (near : K.child f.side m = some (K.addr v))
    (far : K.child f.side.opposite m = K.child f.side.opposite n)
    (holds : K.holds f.label n → K.holds f.label m)
    (leaf_parent : K.parent k = some (K.addr f.label)) (leaf_child : ∀ side, K.child side k = none)
    (leaf_holds : K.holds v k) :
    K.Represents ((h.insert (K.addr f.label) m).insert (K.addr v) k)
      (plug (f :: path) (.node v .nil .nil)) := by
  obtain ⟨outer, -⟩ := (K.subtree_plug h (f :: path) .nil).mp rep.shape
  have distinct := ((K.distinct_plug (f :: path) .nil).mp rep.distinct).1
  simp only [K.mem_addrs_plug (f :: path), addrs_nil, List.not_mem_nil, or_false] at fresh
  have apart : K.addr f.label ≠ K.addr v := fun same =>
    fresh ((K.mem_pathAddrs_cons f path _).mpr (Or.inl same.symm))
  constructor
  · refine (K.subtree_plug _ (f :: path) _).mpr ⟨?_, ⟨k, Finmap.lookup_insert _, leaf_parent,
      leaf_child _, leaf_child _, leaf_holds⟩, trivial, trivial⟩
    refine K.opened_relink outer distinct cell ?_ parent_same near far holds ?_
    · rw [Finmap.lookup_insert_of_ne _ apart, Finmap.lookup_insert]
    · intro a member other
      have notLeaf : a ≠ K.addr v := by
        rintro rfl
        exact fresh member
      rw [Finmap.lookup_insert_of_ne _ notLeaf, Finmap.lookup_insert_of_ne _ other]
  · refine (K.distinct_plug (f :: path) _).mpr ⟨distinct, by simp, ?_⟩
    intro a member within
    obtain rfl : a = K.addr v := by simpa using within
    exact fresh member

/-- A new record between a subtree and its parent, with nothing on its other side. -/
theorem Represents.interpose {h next : Heap N} {f : Frame L} {path : List (Frame L)} {t : BinaryTree L}
    {w : L} {side : Side} {n m k : N} (rep : K.Represents h (plug (f :: path) t))
    (fresh : K.addr w ∉ K.addrs (plug (f :: path) t)) (cell : h.lookup (K.addr f.label) = some n)
    (changed : next.lookup (K.addr f.label) = some m) (parent_same : K.parent m = K.parent n)
    (near : K.child f.side m = some (K.addr w))
    (far : K.child f.side.opposite m = K.child f.side.opposite n)
    (holds : K.holds f.label n → K.holds f.label m)
    (new : K.Record next w (some (K.addr f.label)) side (K.root t) none k)
    (moved : ∀ a n, K.root t = some a → h.lookup a = some n → ∃ m, next.lookup a = some m ∧
      K.parent m = some (K.addr w) ∧ (∀ side, K.child side m = K.child side n) ∧ ∀ v, K.holds v n → K.holds v m)
    (same : ∀ a ∈ K.addrs (plug (f :: path) t), a ≠ K.addr f.label → K.root t ≠ some a →
      next.lookup a = h.lookup a) :
    K.Represents next (plug (f :: path) (Frame.attach ⟨side, w, .nil⟩ t)) := by
  rcases (K.subtree_plug h (f :: path) t).mp rep.shape with ⟨outer, inner⟩
  rcases (K.distinct_plug (f :: path) t).mp rep.distinct with ⟨distinct, below, apart⟩
  have member : ∀ a, a ∈ K.addrs (plug (f :: path) t) ↔ a ∈ K.pathAddrs (f :: path) ∨ a ∈ K.addrs t :=
    K.mem_addrs_plug (f :: path) t
  have top : K.addr f.label ∈ K.pathAddrs (f :: path) := (K.mem_pathAddrs_cons f path _).mpr (Or.inl rfl)
  rw [member, not_or] at fresh
  constructor
  · rw [K.subtree_plug, K.root_attach, K.subtree_attach]
    refine ⟨?_, ⟨k, new⟩, trivial, ?_⟩
    · refine K.opened_relink outer distinct cell changed parent_same near far holds fun a inside other => ?_
      exact same a ((member a).mpr (Or.inl inside)) other fun atRoot => apart a inside (K.root_mem t a atRoot)
    · refine K.subtree_reparent inner below moved fun a inside other => ?_
      exact same a ((member a).mpr (Or.inr inside)) (fun atTop => apart a (atTop ▸ top) inside) other
  · refine (K.distinct_plug (f :: path) _).mpr ⟨distinct, (K.nodup_addrs_attach _ t).mpr ?_, ?_⟩
    · exact ⟨List.not_mem_nil, fresh.2, List.nodup_nil, below, nofun⟩
    · intro a inside within
      rcases (K.mem_addrs_attach _ t a).mp within with rfl | nothing | old
      · exact fresh.1 inside
      · exact List.not_mem_nil nothing
      · exact apart a inside old

/-- The nearest ancestor of a subtree lets go of it. -/
theorem Represents.prune {h next : Heap N} {f : Frame L} {path : List (Frame L)} {t : BinaryTree L} {n m : N}
    (rep : K.Represents h (plug (f :: path) t)) (cell : h.lookup (K.addr f.label) = some n)
    (changed : next.lookup (K.addr f.label) = some m) (parent_same : K.parent m = K.parent n)
    (near : K.child f.side m = none) (far : K.child f.side.opposite m = K.child f.side.opposite n)
    (holds : K.holds f.label n → K.holds f.label m)
    (same : ∀ a ∈ K.pathAddrs (f :: path), a ≠ K.addr f.label → next.lookup a = h.lookup a) :
    K.Represents next (plug (f :: path) .nil) := by
  rcases (K.subtree_plug h (f :: path) t).mp rep.shape with ⟨outer, -⟩
  rcases (K.distinct_plug (f :: path) t).mp rep.distinct with ⟨distinct, -, -⟩
  constructor
  · rw [K.subtree_plug]
    exact ⟨K.opened_relink outer distinct cell changed parent_same near far holds same, trivial⟩
  · exact (K.distinct_plug (f :: path) .nil).mpr ⟨distinct, List.nodup_nil, fun _ _ => List.not_mem_nil⟩

/-- Whatever else changes in the records, their links and labels stay. -/
theorem Represents.touch {h next : Heap N} {t : BinaryTree L} (rep : K.Represents h t)
    (same : ∀ a ∈ K.addrs t, ∀ n, h.lookup a = some n → ∃ m, next.lookup a = some m ∧
      K.parent m = K.parent n ∧ (∀ side, K.child side m = K.child side n) ∧
      ∀ v, K.holds v n → K.holds v m) :
    K.Represents next t := by
  refine ⟨?_, rep.distinct⟩
  have shape := rep.shape
  generalize none = parent at shape ⊢
  clear rep
  induction t generalizing parent with
  | nil => trivial
  | node v l r left right =>
      simp only [addrs_node, List.mem_append, List.mem_cons] at same
      obtain ⟨⟨n, record⟩, below, above⟩ := shape
      obtain ⟨m, cell, parent_eq, child_eq, holds⟩ := same _ (Or.inr (Or.inl rfl)) n record.cell
      exact ⟨⟨m, cell, parent_eq.trans record.parent_eq, (child_eq _).trans record.near_eq,
        (child_eq _).trans record.far_eq, holds v record.holds⟩,
        left (fun a member => same a (Or.inl member)) _ below,
        right (fun a member => same a (Or.inr (Or.inr member))) _ above⟩

theorem Represents.size_le {h : Heap N} {t : BinaryTree L} (rep : K.Represents h t) :
    t.numNodes ≤ h.keys.card := by
  have inside : ∀ a ∈ K.addrs t, a ∈ h.keys := by
    intro a member
    obtain ⟨v, within, rfl⟩ := List.mem_map.mp member
    obtain ⟨path, l, r, rfl⟩ := (mem_inorder_iff v t).mp within
    obtain ⟨n, record⟩ := rep.focus
    exact Finmap.mem_keys.mpr (Finmap.mem_of_lookup_eq_some record.cell)
  calc
    t.numNodes = (K.addrs t).length := by rw [addrs, List.length_map, inorder_length]
    _ = (K.addrs t).toFinset.card := (List.toFinset_card_of_nodup rep.distinct).symm
    _ ≤ h.keys.card := Finset.card_le_card (fun a member => inside a (List.mem_toFinset.mp member))

end Layout

end MnCommon.Memory
