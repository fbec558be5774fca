import MnCommon.Pbtrie.Layout

/-! The steps from leaf to leaf of a trie. -/

namespace MnCommon.Pbtrie

open Memory Trees Tries

/-- The labels that stand for keys. -/
abbrev isLeaf : Label → Bool := isKey Prod.snd

variable {A : Type} {s : PbtrieStore} {T t l r : BinaryTree Label} {v w z : Label} {path : List (Frame Label)}
  {side : Side} {fuel : Nat} {rest : List Label}

/-- The opening of a trie at a leaf, and the leaves that follow in one direction. -/
structure AtLeaf (T : BinaryTree Label) (side : Side) (path : List (Frame Label)) (w : Label) (rest : List Label) :
    Prop where
  tree : T = plug path (.node w .nil .nil)
  leaf : isLeaf w = true
  follow : leavesAhead isLeaf side path = rest

/-- Going down from a subtree to the leaf that comes first on the way towards `side`. -/
theorem node_end_spec (side : Side) (rep : pbtrieLayout.Represents s.heap (plug path (.node v l r)))
    (full : Full isLeaf (.node v l r)) (enough : (BinaryTree.node v l r).numNodes ≤ fuel) :
    ∃ path' w rest, AtLeaf (plug path (.node v l r)) side path' w rest ∧
      w :: rest = leavesAlong isLeaf side (.node v l r) ++ leavesAhead isLeaf side path ∧
      nodeEnd side.opposite fuel (some v.1) s = .ok (some w.1, s) := by
  induction fuel generalizing path v l r with
  | zero => cases enough
  | succ fuel ih =>
      rcases record_at rep with ⟨n, cell, -, child_eq, -⟩
      rw [nodeEnd, bind_ok (load_ok cell), child_eq]
      by_cases leaf : isLeaf v = true
      · rcases full.bare leaf with ⟨rfl, rfl⟩
        refine ⟨path, v, _, ⟨rfl, leaf, rfl⟩, ?_, ?_⟩
        · rw [leavesAlong_leaf side leaf]
          rfl
        · cases side with
          | left => rfl
          | right => rfl
      · have some := full.pick_ne leaf side.opposite
        have inner := full.pick side.opposite
        have opened : plug path (.node v l r) =
            plug (⟨side.opposite, v, side.pick l r⟩ :: path) (side.opposite.pick l r) := by
          have whole := attach_pick side.opposite v l r
          rw [opposite_opposite] at whole
          rw [plug, whole]
        have follow : leavesAlong isLeaf side (.node v l r) ++ leavesAhead isLeaf side path =
            leavesAlong isLeaf side (side.opposite.pick l r) ++
              leavesAhead isLeaf side (⟨side.opposite, v, side.pick l r⟩ :: path) := by
          rw [leavesAlong_fork side leaf, leavesAhead_far side leaf, List.append_assoc]
        have size : (side.opposite.pick l r).numNodes ≤ fuel := by
          rw [BinaryTree.numNodes] at enough
          cases side with
          | left => exact (Nat.le_add_left _ _).trans (Nat.le_of_succ_le_succ enough)
          | right => exact (Nat.le_add_right _ _).trans (Nat.le_of_succ_le_succ enough)
        rw [follow, opened]
        rw [opened] at rep
        generalize side.opposite.pick l r = child at some inner rep size ⊢
        cases child with
        | nil => exact absurd rfl some
        | node c lc rc => exact ih rep inner size

/-- Going up from a subtree to the next leaf on the way towards `side`. -/
theorem node_climb_spec {a : Addr} (rep : pbtrieLayout.Represents s.heap (plug path t))
    (full : Full isLeaf (plug path t)) (atRoot : pbtrieLayout.root t = some a)
    (follow : leavesAhead isLeaf side path = w :: rest) (enough : path.length < fuel) :
    ∃ path', AtLeaf (plug path t) side path' w rest ∧ nodeClimb side fuel (some a) s = .ok (some w.1, s) := by
  induction path generalizing t a fuel with
  | nil => exact absurd follow (by rw [leavesAhead, ahead_nil]; simp)
  | cons f path ih =>
      cases fuel with
      | zero => cases enough
      | succ fuel =>
          cases t with
          | nil => cases atRoot
          | node v l r =>
              obtain rfl : v.1 = a := Option.some.inj atRoot
              have there : BinaryTree.node v l r ≠ .nil := by simp
              rcases record_at rep with ⟨n, cell, parent_eq, -, -⟩
              rcases rep.ancestor with ⟨p, above⟩
              have aboveCell : s.heap.lookup f.label.1 = some p := above.cell
              have parent : n.parent = some f.label.1 := parent_eq
              have tells : some v.1 = p.child side ↔ f.side = side := rep.side_iff rfl above.cell side
              rw [nodeClimb, bind_ok (load_ok cell), parent, if_neg (Option.some_ne_none _),
                bind_ok (load_ok aboveCell)]
              by_cases near : f.side = side
              · have back : ¬ (p.child side ≠ none ∧ p.child side ≠ some v.1) :=
                  fun both => both.2 (tells.mpr near).symm
                rw [if_neg back]
                rcases f with ⟨here, label, sibling⟩
                obtain rfl : here = side := near
                rw [leavesAhead_near] at follow
                exact ih rep full (pbtrieLayout.root_attach _ _) follow (Nat.lt_of_succ_lt_succ enough)
              · have far : f.side = side.opposite := by
                  cases here : f.side <;> cases side <;> first | rfl | exact absurd here near
                rcases full.ancestor there with ⟨fork, beside, lower⟩
                have flipped := plug_flip f path (.node v l r)
                have child_eq : p.child side = pbtrieLayout.root f.sibling := by
                  have other : pbtrieLayout.child f.side.opposite p = pbtrieLayout.root f.sibling := above.far_eq
                  rwa [far, opposite_opposite] at other
                rcases f with ⟨here, label, sibling⟩
                obtain rfl : here = side.opposite := far
                rw [leavesAhead_far side fork] at follow
                rw [opposite_opposite] at flipped
                cases sibling with
                | nil => exact absurd rfl beside
                | node c lc rc =>
                    have other : p.child side ≠ none ∧ p.child side ≠ some v.1 :=
                      ⟨child_eq ▸ Option.some_ne_none _, fun same => near (tells.mp same.symm)⟩
                    rw [if_pos other, bound_bind, child_eq, flipped]
                    rw [flipped] at rep
                    have size : (BinaryTree.node c lc rc).numNodes ≤ s.bound :=
                      (Nat.le_add_left _ _).trans ((path_length_le _ _).trans (rep.size_le.trans (Nat.le_succ _)))
                    rcases node_end_spec side rep lower size with ⟨path', w', rest', arrives, order, run⟩
                    rw [leavesAhead_near, follow] at order
                    rcases List.cons.inj order with ⟨rfl, rfl⟩
                    exact ⟨path', arrives, run⟩

/-- From a leaf to the next one. -/
theorem node_step_spec (rep : pbtrieLayout.Represents s.heap T) (full : Full isLeaf T)
    (here : AtLeaf T side path v (w :: rest)) :
    ∃ path', AtLeaf T side path' w rest ∧ nodeStep side (some v.1) s = .ok (some w.1, s) := by
  rcases here with ⟨rfl, leaf, follow⟩
  rcases record_at rep with ⟨n, cell, -, child_eq, -⟩
  have enough : path.length < s.bound := by
    have length := path_length_le path (.node v .nil .nil)
    exact Nat.lt_succ_of_le ((Nat.le_add_right _ _).trans (length.trans rep.size_le))
  rcases node_climb_spec rep full rfl follow enough with ⟨path', arrives, run⟩
  refine ⟨path', arrives, ?_⟩
  have childless : n.child side = none := by
    rw [child_eq]
    cases side with
    | left => rfl
    | right => rfl
  have stays : ¬ n.child side ≠ none := not_not.mpr childless
  rw [nodeStep, bind_ok (load_ok cell), if_neg stays]
  exact run

/-- The callback sees the leaves in order, up to the last one. -/
theorem traverse_from_spec {cb : Ptr → A → PbtrieProg (Int × A)} {f : Label → A → A} {acc : A}
    (quiet : ∀ v ∈ inorder T, isLeaf v = true → ∀ acc, cb (some v.1) acc s = .ok ((0, f v acc), s))
    (rep : pbtrieLayout.Represents s.heap T) (full : Full isLeaf T) (here : AtLeaf T side path v rest)
    (last : (v :: rest).getLast? = some z) (distinct : ((v :: rest).map Prod.fst).Nodup)
    (enough : rest.length < fuel) :
    traverseFrom side cb (some z.1) fuel (some v.1) acc s =
      .ok ((0, (v :: rest).foldl (fun acc w => f w acc) acc), s) := by
  induction rest generalizing path v acc fuel with
  | nil =>
      cases fuel with
      | zero => cases enough
      | succ fuel =>
          obtain rfl : v = z := Option.some.inj last
          have member : v ∈ inorder T := (mem_inorder_iff v T).mpr ⟨path, .nil, .nil, here.tree⟩
          have stop : ¬ some v.1 ≠ some v.1 := not_not.mpr rfl
          rw [traverseFrom, if_neg stop]
          exact quiet v member here.leaf acc
  | cons w rest ih =>
      cases fuel with
      | zero => cases enough
      | succ fuel =>
          have member : v ∈ inorder T := (mem_inorder_iff v T).mpr ⟨path, .nil, .nil, here.tree⟩
          rw [List.getLast?_cons_cons] at last
          rw [List.map_cons, List.nodup_cons] at distinct
          have apart : some v.1 ≠ some z.1 := by
            intro same
            apply distinct.1
            rw [Option.some.inj same]
            exact List.mem_map_of_mem (List.mem_of_getLast? last)
          rcases node_step_spec rep full here with ⟨path', arrives, run⟩
          rw [traverseFrom, if_pos apart, bind_ok (quiet v member here.leaf acc)]
          change (nodeStep side (some v.1) >>= _) s = _
          rw [bind_ok run]
          exact ih arrives last distinct.2 (Nat.lt_of_succ_lt_succ enough)

end MnCommon.Pbtrie
