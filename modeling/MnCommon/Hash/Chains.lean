import MnCommon.Hash.Layout

/-! Looking up items and putting them into their chains. -/

namespace MnCommon.Hash

open Memory

variable {K V : Type} {cb : Callbacks K V} {system : Allocator (MnHashItem K V)} {s next : HashStore K V}
  {chains : Chains K V} {good : Nat → Prop} {i j : Nat} {a : Addr} {n : MnHashItem K V} {key : K} {value : V}
  {xs front back : List (Entry K V)} {p first : Ptr}

theorem slotOf_ok (positive : 0 < s.vars.table.length) (key : K) :
    slotOf cb key s = .ok (some (s.vars.data, place cb s.vars.table.length key), s) := by
  have low := place_lt cb positive key
  rw [place] at low
  simp only [slotOf, run_bind, vars, arrayGet, run_pure, if_pos low, reduceCtorEq, if_false, place]

theorem readSlot_ok (here : s.vars.table[i]? = some p) : readSlot (some (s.vars.data, i)) s = .ok (p, s) := by
  simp only [readSlot, run_bind, vars, here, if_true, run_pure]

theorem writeSlot_ok (low : i < s.vars.table.length) (p : Ptr) :
    writeSlot (some (s.vars.data, i)) p s =
      .ok ((), { s with vars := { s.vars with table := s.vars.table.set i p } }) := by
  simp only [writeSlot, run_bind, vars, low, and_self, if_true, setVars]

/-- Whether the key of an item is equal to the one looked up. -/
def hit (cb : Callbacks K V) (key : K) (x : Entry K V) : Bool := cb.cmp key x.2.1 = 0

theorem findItem_ok (cb : Callbacks K V) (key : K) {strict : Prop} {before : Ptr}
    (seg : links.Segment pairOf s.heap strict before p xs)
    (fuel : Nat) (enough : xs.length ≤ fuel) :
    findItem cb key fuel p s = .ok ((xs.find? (hit cb key)).map Prod.fst, s) := by
  induction xs generalizing strict before p fuel with
  | nil =>
      obtain rfl : p = none := seg
      cases fuel with
      | zero => rfl
      | succ fuel => rfl
  | cons x rest ih =>
      rcases seg with ⟨rfl, n, cell, pair, -, tail⟩
      have key_eq : n.key = x.2.1 := congrArg Prod.fst pair
      cases fuel with
      | zero => exact absurd enough (Nat.not_succ_le_zero _)
      | succ fuel =>
          rw [findItem, bind_ok (load_ok cell), run_ite, key_eq]
          by_cases equal : cb.cmp key x.2.1 = 0
          · have found : hit cb key x = true := decide_eq_true equal
            rw [if_pos equal, List.find?_cons_of_pos found]
            rfl
          · have other : ¬ hit cb key x = true := fun found => equal (of_decide_eq_true found)
            rw [if_neg equal, List.find?_cons_of_neg other]
            exact ih tail fuel (Nat.le_of_succ_le_succ enough)

/-- The first item of the chain of a key that is equal to it. -/
def visible (cb : Callbacks K V) (size : Nat) (chains : Chains K V) (key : K) : Option (Entry K V) :=
  (chains (place cb size key)).find? (hit cb key)

theorem hashGetItem_ok (holds : Holds cb s chains good) (key : K)
    (counted : s.vars.elnum = 0 → allOf s.vars.table.length chains = []) :
    hashGetItem cb key s = .ok ((visible cb s.vars.table.length chains key).map Prod.fst, s) := by
  have low := place_lt cb holds.nonempty key
  rw [hashGetItem, run_bind]
  simp only [vars]
  rw [run_ite]
  by_cases empty : s.vars.elnum = 0
  · have nothing : chains (place cb s.vars.table.length key) = [] := by
      apply List.eq_nil_iff_forall_not_mem.mpr
      intro x inside
      have member := mem_allOf.mpr ⟨_, low, inside⟩
      rw [counted empty] at member
      exact List.not_mem_nil member
    rw [if_pos empty, visible, nothing]
    rfl
  · rw [if_neg empty, bind_ok (slotOf_ok holds.nonempty key), bind_ok (readSlot_ok (holds.head low)), run_ite]
    cases shape : chains (place cb s.vars.table.length key) with
    | nil =>
        rw [visible, shape]
        rfl
    | cons x rest =>
        have seg := holds.seg low
        have short := holds.short low
        rw [shape] at seg short
        rw [if_neg (by simp), bound_bind, visible, shape]
        exact findItem_ok cb key seg s.bound (short.trans (Nat.le_succ _))

/-- The record of the first item changes as `linkFirst` and `addFirst` change it. -/
def Pushed (first : Ptr) (a : Addr) (h after : Heap (MnHashItem K V)) : Prop :=
  (∀ b, first = some b → ∀ m, h.lookup b = some m →
    after.lookup b = some { m with prev := some a, bucket := none }) ∧
  ∀ c, c ≠ a → first ≠ some c → after.lookup c = h.lookup c

theorem linkFirst_ok (phit : Option Slot) (cell : s.heap.lookup a = some n) (slot : readSlot phit s = .ok (first, s))
    (stable : ∀ h, readSlot phit { s with heap := h } = .ok (first, { s with heap := h }))
    (fresh : first ≠ some a) (there : ∀ b, first = some b → ∃ m, s.heap.lookup b = some m) :
    ∃ after, linkFirst phit (some a) s = .ok ((), { s with heap := after }) ∧
      after.lookup a = some { n with bucket := phit, prev := none, next := first } ∧
      Pushed first a s.heap after := by
  have second : (s.heap.insert a { n with bucket := phit }).lookup a = some { n with bucket := phit } :=
    Finmap.lookup_insert _
  let mid := s.heap.insert a { n with bucket := phit, prev := none }
  have third : mid.lookup a = some { n with bucket := phit, prev := none } := Finmap.lookup_insert _
  have away : ∀ c, c ≠ a → mid.lookup c = s.heap.lookup c := fun c other => Finmap.lookup_insert_of_ne _ other
  rw [linkFirst, bind_ok (update_ok _ cell), bind_ok (update_ok _ second), Finmap.insert_insert,
    bind_ok (stable mid), run_ite]
  cases first with
  | none =>
      refine ⟨mid.insert a { n with bucket := phit, prev := none, next := none }, ?_, Finmap.lookup_insert _, nofun,
        fun c other _ => ?_⟩
      · rw [if_pos rfl, update_ok _ third]
      · rw [Finmap.lookup_insert_of_ne _ other, away c other]
  | some b =>
      have apart : b ≠ a := fun same => fresh (congrArg some same)
      rcases there b rfl with ⟨m, cell'⟩
      let linked := mid.insert a { n with bucket := phit, prev := none, next := some b }
      have fourth : linked.lookup b = some m := by
        rw [Finmap.lookup_insert_of_ne _ apart, away b apart, cell']
      have fifth : (linked.insert b { m with prev := some a }).lookup b = some { m with prev := some a } :=
        Finmap.lookup_insert _
      refine ⟨linked.insert b { m with prev := some a, bucket := none }, ?_, ?_, fun c same k known => ?_,
        fun c other others => ?_⟩
      · rw [if_neg (Option.some_ne_none b), bind_ok (update_ok _ third), bind_ok (update_ok _ fourth),
          update_ok _ fifth, Finmap.insert_insert]
      · rw [Finmap.lookup_insert_of_ne _ apart.symm]
        exact Finmap.lookup_insert _
      · obtain rfl : b = c := Option.some.inj same
        obtain rfl : m = k := Option.some.inj (cell'.symm.trans known)
        exact Finmap.lookup_insert _
      · have unlike : c ≠ b := fun same => others (congrArg some same.symm)
        rw [Finmap.lookup_insert_of_ne _ unlike, Finmap.lookup_insert_of_ne _ other, away c other]

/-- An item comes to the front of its chain. -/
theorem Holds.push (holds : Holds cb s chains good) (low : i < s.vars.table.length) {g : Prop}
    (data : next.vars.data = s.vars.data) (table : next.vars.table = s.vars.table.set i (some a))
    (pushed : Pushed ((chains i).head?.map Prod.fst) a s.heap next.heap)
    (cell : next.heap.lookup a = some n) (link : n.next = (chains i).head?.map Prod.fst)
    (right : g → n.prev = none ∧ n.bucket = some (s.vars.data, i))
    (here : place cb s.vars.table.length n.key = i) (fresh : ∀ x ∈ allOf s.vars.table.length chains, x.1 ≠ a) :
    Holds cb next (Function.update chains i ((a, pairOf n) :: chains i)) (Function.update good i g) := by
  have unlike : ∀ x ∈ chains i, x.1 ≠ a := fun x inside => fresh x (mem_allOf.mpr ⟨i, low, inside⟩)
  have tail : links.Segment pairOf next.heap True (some a) ((chains i).head?.map Prod.fst) (chains i) := by
    refine (holds.seg low).relink (some a) (fun x top m known => ?_) fun x inside => ?_
    · have first : (chains i).head?.map Prod.fst = some x.1 := congrArg (Option.map Prod.fst) top
      exact ⟨_, pushed.1 x.1 first m known, rfl, rfl, rfl⟩
    · refine pushed.2 x.1 (unlike x (List.mem_of_mem_tail inside)) fun same => ?_
      cases shape : chains i with
      | nil =>
          rw [shape] at inside
          exact List.not_mem_nil inside
      | cons y rest =>
          have once := holds.once i low
          rw [shape] at same inside once
          have first : y.1 = x.1 := Option.some.inj same
          exact (List.nodup_cons.mp once).1 (first ▸ List.mem_map_of_mem inside)
  refine holds.change low data table ?_ (fun fine x first => ?_) (fun x inside => ?_) ?_
    fun j low' other y inside => ⟨?_, fun x member => ?_⟩
  · exact ⟨rfl, n, cell, rfl, fun fine => (right fine).1, by rw [← link] at tail; exact tail⟩
  · obtain rfl : (a, pairOf n) = x := Option.some.inj first
    exact ⟨n, cell, (right fine).2⟩
  · rcases List.mem_cons.mp inside with rfl | old
    · exact here
    · exact holds.placed i low x old
  · refine List.nodup_cons.mpr ⟨fun inside => ?_, holds.once i low⟩
    rcases List.mem_map.mp inside with ⟨x, member, same⟩
    exact unlike x member same
  · refine pushed.2 y.1 (fresh y (mem_allOf.mpr ⟨j, low', inside⟩)) fun same => ?_
    rcases Option.map_eq_some_iff.mp same with ⟨x, first, same⟩
    exact holds.apart i low j low' other.symm x (List.mem_of_head? first) y inside same
  · rcases List.mem_cons.mp member with rfl | old
    · exact (fresh y (mem_allOf.mpr ⟨j, low', inside⟩)).symm
    · exact holds.apart i low j low' other.symm x old y inside

/-- The record of the item itself does not matter. -/
theorem Pushed.around {h mid mid' after : Heap (MnHashItem K V)} (pushed : Pushed first a mid mid')
    (fresh : first ≠ some a) (early : ∀ c, c ≠ a → mid.lookup c = h.lookup c)
    (late : ∀ c, c ≠ a → after.lookup c = mid'.lookup c) : Pushed first a h after := by
  constructor
  · intro b same m known
    have other : b ≠ a := fun equal => fresh (same.trans (congrArg some equal))
    rw [late b other]
    exact pushed.1 b same m ((early b other).trans known)
  · intro c other others
    rw [late c other, pushed.2 c other others, early c other]

theorem Holds.fresh_head (_ : Holds cb s chains good) (low : i < s.vars.table.length)
    (fresh : ∀ x ∈ allOf s.vars.table.length chains, x.1 ≠ a) : (chains i).head?.map Prod.fst ≠ some a := by
  intro same
  rcases Option.map_eq_some_iff.mp same with ⟨x, first, rfl⟩
  exact fresh x (mem_allOf.mpr ⟨i, low, List.mem_of_head? first⟩) rfl

theorem Holds.head_cell (holds : Holds cb s chains good) (low : i < s.vars.table.length) (b : Addr)
    (first : (chains i).head?.map Prod.fst = some b) : ∃ m, s.heap.lookup b = some m := by
  rcases Option.map_eq_some_iff.mp first with ⟨x, top, rfl⟩
  rcases holds.cell low (List.mem_of_head? top) with ⟨m, cell, -⟩
  exact ⟨m, cell⟩

/-- The address of a new item is not one of the table. -/
theorem Holds.fresh_pick (holds : Holds cb s chains good) (system : Allocator (MnHashItem K V)) (tick : Nat) :
    ∀ x ∈ allOf s.vars.table.length chains, x.1 ≠ system.pick tick s.heap.keys := by
  intro x inside same
  rcases mem_allOf.mp inside with ⟨i, low, member⟩
  rcases holds.cell low member with ⟨n, cell, -⟩
  apply system.pick_fresh tick s.heap.keys
  rw [← same]
  exact Finmap.mem_keys.mpr (Finmap.mem_of_lookup_eq_some cell)

/-- What a function leaves in the variables of the table. -/
structure Leaves (elnum : Nat) (finished : List (K × V)) (s next : HashStore K V) : Prop where
  data : next.vars.data = s.vars.data
  length : next.vars.table.length = s.vars.table.length
  elnum : next.vars.elnum = elnum
  finished : next.vars.finished = finished

/-- Nothing is written but the new item at `a` and the items of the table. -/
structure Spares (chains : Chains K V) (a : Addr) (s next : HashStore K V) : Prop where
  unused : s.heap.lookup a = none
  same : ∀ c, c ≠ a → (∀ x ∈ allOf s.vars.table.length chains, x.1 ≠ c) → next.heap.lookup c = s.heap.lookup c

theorem Pushed.spares (low : i < s.vars.table.length) (unused : s.heap.lookup a = none)
    (pushed : Pushed ((chains i).head?.map Prod.fst) a s.heap next.heap) : Spares chains a s next := by
  refine ⟨unused, fun c other away => pushed.2 c other fun first => ?_⟩
  rcases Option.map_eq_some_iff.mp first with ⟨x, top, same⟩
  exact away x (mem_allOf.mpr ⟨i, low, List.mem_of_head? top⟩) same

/-- The address of a new item is not in use. -/
theorem pick_unused (system : Allocator (MnHashItem K V)) (s : HashStore K V) :
    s.heap.lookup (system.pick s.tick s.heap.keys) = none := by
  rw [Finmap.lookup_eq_none, ← Finmap.mem_keys]
  exact system.pick_fresh s.tick s.heap.keys

/-- A new item in front of its chain; its record is complete. -/
theorem Holds.enter (holds : Holds cb s chains good) {g : Prop} {h : Heap (MnHashItem K V)} (tick : Nat)
    (low : i < s.vars.table.length) (here : place cb s.vars.table.length n.key = i)
    (fresh : ∀ x ∈ allOf s.vars.table.length chains, x.1 ≠ a)
    (pushed : Pushed ((chains i).head?.map Prod.fst) a s.heap h) (cell : h.lookup a = some n)
    (link : n.next = (chains i).head?.map Prod.fst)
    (right : g → n.prev = none ∧ n.bucket = some (s.vars.data, i)) :
    ∃ mid next, writeSlot (some (s.vars.data, i)) (some a) ⟨h, s.vars, tick⟩ = .ok ((), mid) ∧
      countUp mid = .ok ((), next) ∧
      Holds cb next (Function.update chains i ((a, pairOf n) :: chains i)) (Function.update good i g) ∧
      Leaves (s.vars.elnum + 1) s.vars.finished s next ∧ Pushed ((chains i).head?.map Prod.fst) a s.heap next.heap := by
  have written := writeSlot_ok (s := ⟨h, s.vars, tick⟩) low (some a)
  refine ⟨_, _, written, rfl, ?_, ⟨rfl, List.length_set .., rfl, rfl⟩, pushed⟩
  exact holds.push low rfl rfl pushed cell link right here fresh

theorem hashSetItem_spares (holds : Holds cb s chains good) (system : Allocator (MnHashItem K V)) (key : K) (value : V) :
    ∃ a next, hashSetItem cb system key value s = .ok ((), next) ∧
      (∀ x ∈ allOf s.vars.table.length chains, x.1 ≠ a) ∧
      Holds cb next (Function.update chains (place cb s.vars.table.length key)
        ((a, key, value) :: chains (place cb s.vars.table.length key)))
        (Function.update good (place cb s.vars.table.length key) True) ∧
      Leaves (s.vars.elnum + 1) s.vars.finished s next ∧ Spares chains a s next := by
  have low := place_lt cb holds.nonempty key
  have fresh := holds.fresh_pick system s.tick
  have unused := pick_unused system s
  have slot := readSlot_ok (holds.head low)
  generalize place : place cb s.vars.table.length key = i at low slot
  generalize picked : system.pick s.tick s.heap.keys = a at fresh unused
  let start : HashStore K V := { s with heap := s.heap.insert a (system.junk s.tick), tick := s.tick + 1 }
  have allocated : alloc system s = .ok (some a, start) := by
    rw [alloc, picked]
  have away : ∀ c, c ≠ a → start.heap.lookup c = s.heap.lookup c := fun c other => Finmap.lookup_insert_of_ne _ other
  have head := holds.fresh_head low fresh
  have stable : ∀ h, readSlot (some (s.vars.data, i)) { start with heap := h } =
      .ok ((chains i).head?.map Prod.fst, { start with heap := h }) := fun h => readSlot_ok (holds.head low)
  have top : ∀ b, (chains i).head?.map Prod.fst = some b → ∃ m, start.heap.lookup b = some m := by
    intro b first
    rw [away b fun same => head (first.trans (congrArg some same))]
    exact holds.head_cell low b first
  rcases linkFirst_ok (some (s.vars.data, i)) (Finmap.lookup_insert _) (stable start.heap) stable head top with
    ⟨h, linked, cell, pushed⟩
  have cell' : ∀ m : MnHashItem K V, (h.insert a m).lookup a = some m := fun m => Finmap.lookup_insert _
  have late : ∀ m, ∀ c, c ≠ a → (h.insert a m).lookup c = h.lookup c := fun m c other =>
    Finmap.lookup_insert_of_ne _ other
  let last : MnHashItem K V := ⟨some (s.vars.data, i), none, (chains i).head?.map Prod.fst, key, value⟩
  have right : True → last.prev = none ∧ last.bucket = some (s.vars.data, i) := fun _ => ⟨rfl, rfl⟩
  rcases holds.enter (s.tick + 1) low place fresh (pushed.around head away (late last)) (cell' last) rfl right with
    ⟨mid, next, written, counted, after, leaves, pushed'⟩
  refine ⟨a, next, ?_, fresh, after, leaves, pushed'.spares low unused⟩
  rw [hashSetItem, bind_ok (slotOf_ok holds.nonempty key), place, bind_ok allocated, bind_ok linked,
    bind_ok (update_ok _ cell), bind_ok (update_ok _ (cell' _)), Finmap.insert_insert, bind_ok written]
  exact counted

theorem hashSetItem_ok (holds : Holds cb s chains good) (system : Allocator (MnHashItem K V)) (key : K) (value : V) :
    ∃ a next, hashSetItem cb system key value s = .ok ((), next) ∧
      (∀ x ∈ allOf s.vars.table.length chains, x.1 ≠ a) ∧
      Holds cb next (Function.update chains (place cb s.vars.table.length key)
        ((a, key, value) :: chains (place cb s.vars.table.length key)))
        (Function.update good (place cb s.vars.table.length key) True) ∧
      Leaves (s.vars.elnum + 1) s.vars.finished s next := by
  rcases hashSetItem_spares holds system key value with ⟨a, next, run, fresh, after, leaves, -⟩
  exact ⟨a, next, run, fresh, after, leaves⟩

/-- The calls of the finaliser after one more, if there is one. -/
def finish (cb : Callbacks K V) (log : List (K × V)) (pair : K × V) : List (K × V) :=
  if cb.fini.isSome then log ++ [pair] else log

def logged (cb : Callbacks K V) (s : HashStore K V) (pair : K × V) : HashStore K V where
  heap := s.heap
  vars := { s.vars with finished := finish cb s.vars.finished pair }
  tick := s.tick

theorem callFini_ok (cb : Callbacks K V) (key : K) (value : V) (s : HashStore K V) :
    ∃ res, callFini cb key value s = .ok (res, logged cb s (key, value)) := by
  rw [logged, finish]
  cases shape : cb.fini with
  | none => exact ⟨0, by simp only [callFini, shape]; rfl⟩
  | some fini => exact ⟨fini s.vars.finished key value, by simp only [callFini, shape]; rfl⟩

theorem set_same {l : List Ptr} (here : l[i]? = some p) : l.set i p = l := by
  rcases List.getElem?_eq_some_iff.mp here with ⟨low, rfl⟩
  exact List.set_getElem_self low

/-- One item gets another key, which has to belong to the same slot, and another value. -/
theorem Holds.assign (holds : Holds cb s chains good) (low : i < s.vars.table.length) {x : Entry K V}
    (shape : chains i = front ++ x :: back) (cell : s.heap.lookup x.1 = some n)
    (here : place cb s.vars.table.length key = i) (pair : K × V) :
    Holds cb { logged cb s pair with heap := s.heap.insert x.1 { n with key := key, value := value } }
      (Function.update chains i (front ++ (x.1, key, value) :: back)) good := by
  have seg := holds.seg low
  have once := holds.once i low
  have placed := holds.placed i low
  rw [shape] at seg once placed
  have heads : (front ++ (x.1, key, value) :: back).head?.map Prod.fst = (chains i).head?.map Prod.fst := by
    rw [shape]
    cases front with
    | nil => rfl
    | cons y rest => rfl
  have addresses : (front ++ (x.1, key, value) :: back).map Prod.fst = (front ++ x :: back).map Prod.fst := by
    rw [List.map_append, List.map_append, List.map_cons, List.map_cons]
  have member : ∀ y ∈ front ++ (x.1, key, value) :: back, ∃ z ∈ chains i, z.1 = y.1 := by
    intro y inside
    have address := List.mem_map_of_mem (f := Prod.fst) inside
    rw [addresses, ← shape] at address
    exact List.mem_map.mp address
  have same : Function.update good i (good i) = good := Function.update_eq_self i good
  rw [← same]
  refine holds.change low rfl ?_ ?_ (fun fine y first => ?_) (fun y inside => ?_) ?_ fun j low' other y inside => ?_
  · rw [heads]
    exact (set_same (holds.head low)).symm
  · rw [heads, shape]
    exact seg.relabel once cell rfl rfl
  · have right := holds.bucket i low fine
    rw [shape] at right
    cases front with
    | nil =>
        obtain rfl : (x.1, key, value) = y := Option.some.inj first
        rcases right x rfl with ⟨m, known, bucket⟩
        obtain rfl : n = m := Option.some.inj (cell.symm.trans known)
        exact ⟨_, Finmap.lookup_insert _, bucket⟩
    | cons z rest =>
        obtain rfl : z = y := Option.some.inj first
        have apart : z.1 ≠ x.1 := by
          intro equal
          apply (List.nodup_cons.mp once).1
          rw [equal]
          exact List.mem_map_of_mem (List.mem_append_right _ List.mem_cons_self)
        rcases right z rfl with ⟨m, known, bucket⟩
        exact ⟨m, (Finmap.lookup_insert_of_ne _ apart).trans known, bucket⟩
  · rcases List.mem_append.mp inside with before | behind
    · exact placed y (List.mem_append_left _ before)
    · rcases List.mem_cons.mp behind with rfl | after
      · exact here
      · exact placed y (List.mem_append_right _ (List.mem_cons_of_mem _ after))
  · rw [addresses]
    exact once
  · have there : x ∈ chains i := shape ▸ List.mem_append_right _ List.mem_cons_self
    refine ⟨Finmap.lookup_insert_of_ne _ (holds.apart j low' i low other y inside x there), fun z within => ?_⟩
    rcases member z within with ⟨w, old, equal⟩
    rw [← equal]
    exact holds.apart i low j low' other.symm w old y inside

theorem allocated {a : Addr} (picked : system.pick s.tick s.heap.keys = a) :
    alloc system s = .ok (some a, { s with heap := s.heap.insert a (system.junk s.tick), tick := s.tick + 1 }) := by
  rw [alloc, picked]

/-- The links of the new item that point back are whatever was in its memory. -/
theorem addFirst_ok (holds : Holds cb s chains good) (system : Allocator (MnHashItem K V)) (key : K) (value : V)
    (low : i < s.vars.table.length) (here : place cb s.vars.table.length key = i) (some_item : chains i ≠ []) :
    ∃ a next, addFirst system (some (s.vars.data, i)) ((chains i).head?.map Prod.fst) key value s = .ok ((), next) ∧
      (∀ x ∈ allOf s.vars.table.length chains, x.1 ≠ a) ∧
      Holds cb next (Function.update chains i ((a, key, value) :: chains i)) (Function.update good i False) ∧
      Leaves (s.vars.elnum + 1) s.vars.finished s next ∧ Spares chains a s next := by
  have fresh := holds.fresh_pick system s.tick
  have unused := pick_unused system s
  generalize picked : system.pick s.tick s.heap.keys = a at fresh unused
  have head := holds.fresh_head low fresh
  rcases List.exists_cons_of_ne_nil some_item with ⟨x, rest, shape⟩
  have first : (chains i).head?.map Prod.fst = some x.1 := by
    rw [shape]
    rfl
  have there : x ∈ chains i := shape ▸ List.mem_cons_self
  have apart : x.1 ≠ a := fresh x (mem_allOf.mpr ⟨i, low, there⟩)
  rcases holds.cell low there with ⟨m, cell, -⟩
  let junk := system.junk s.tick
  let start := s.heap.insert a junk
  let linked := start.insert a { junk with next := some x.1 }
  have second : linked.lookup x.1 = some m := by
    rw [Finmap.lookup_insert_of_ne _ apart, Finmap.lookup_insert_of_ne _ apart, cell]
  let pushedHeap := linked.insert x.1 { m with prev := some a, bucket := none }
  have third : pushedHeap.lookup a = some { junk with next := some x.1 } := by
    rw [Finmap.lookup_insert_of_ne _ apart.symm, Finmap.lookup_insert]
  let last : MnHashItem K V := { junk with next := some x.1, key := key, value := value }
  have pushed : Pushed ((chains i).head?.map Prod.fst) a s.heap (pushedHeap.insert a last) := by
    rw [first]
    constructor
    · intro b same k known
      obtain rfl : x.1 = b := Option.some.inj same
      obtain rfl : m = k := Option.some.inj (cell.symm.trans known)
      rw [Finmap.lookup_insert_of_ne _ apart, Finmap.lookup_insert]
    · intro c other others
      have unlike : c ≠ x.1 := fun same => others (congrArg some same.symm)
      rw [Finmap.lookup_insert_of_ne _ other, Finmap.lookup_insert_of_ne _ unlike, Finmap.lookup_insert_of_ne _ other,
        Finmap.lookup_insert_of_ne _ other]
  rcases holds.enter (s.tick + 1) low here fresh pushed (Finmap.lookup_insert _) first.symm False.elim with
    ⟨mid, next, written, counted, after, leaves, pushed'⟩
  refine ⟨a, next, ?_, fresh, after, leaves, pushed'.spares low unused⟩
  rw [first, addFirst, bind_ok (allocated picked), bind_ok (update_ok _ (Finmap.lookup_insert _)),
    bind_ok (update_ok _ second), bind_ok (update_ok _ (Finmap.lookup_insert _)), Finmap.insert_insert,
    bind_ok (update_ok _ third), bind_ok (update_ok _ (Finmap.lookup_insert _)), Finmap.insert_insert, bind_ok written]
  exact counted

/-- What `hash_set_item_uniq` does where the key is not in the table. -/
theorem hashSetItemUniq_spares (holds : Holds cb s chains good) (system : Allocator (MnHashItem K V)) (key : K)
    (value : V) (new : visible cb s.vars.table.length chains key = none) :
    ∃ a next, hashSetItemUniq cb system key value s = .ok ((none, none), next) ∧
      (∀ x ∈ allOf s.vars.table.length chains, x.1 ≠ a) ∧
      Holds cb next (Function.update chains (place cb s.vars.table.length key)
        ((a, key, value) :: chains (place cb s.vars.table.length key)))
        (Function.update good (place cb s.vars.table.length key) (chains (place cb s.vars.table.length key) = [])) ∧
      Leaves (s.vars.elnum + 1) s.vars.finished s next ∧ Spares chains a s next := by
  have low := place_lt cb holds.nonempty key
  have slot := readSlot_ok (holds.head low)
  rw [visible] at new
  rw [hashSetItemUniq, bind_ok (slotOf_ok holds.nonempty key), bind_ok slot, run_ite]
  generalize place : place cb s.vars.table.length key = i at low slot new
  by_cases empty : chains i = []
  · have head : (chains i).head?.map Prod.fst = none := by
      rw [empty]
      rfl
    have fresh := holds.fresh_pick system s.tick
    have unused := pick_unused system s
    generalize picked : system.pick s.tick s.heap.keys = a at fresh unused
    let last : MnHashItem K V := ⟨some (s.vars.data, i), none, none, key, value⟩
    have pushed : Pushed ((chains i).head?.map Prod.fst) a s.heap (s.heap.insert a last) := by
      rw [head]
      exact ⟨nofun, fun c other _ => Finmap.lookup_insert_of_ne _ other⟩
    have right : chains i = [] → last.prev = none ∧ last.bucket = some (s.vars.data, i) := fun _ => ⟨rfl, rfl⟩
    rcases holds.enter (s.tick + 1) low place fresh pushed (Finmap.lookup_insert _) head.symm right with
      ⟨mid, next, written, counted, after, leaves, pushed'⟩
    refine ⟨a, next, ?_, fresh, after, leaves, pushed'.spares low unused⟩
    rw [if_pos head, bind_ok (allocated picked), bind_ok (update_ok _ (Finmap.lookup_insert _)),
      Finmap.insert_insert, bind_ok written, bind_ok counted, run_pure]
  · have head : ¬ (chains i).head?.map Prod.fst = none := by
      rcases List.exists_cons_of_ne_nil empty with ⟨x, rest, shape⟩
      rw [shape]
      exact Option.some_ne_none _
    rcases addFirst_ok holds system key value low place empty with ⟨a, next, run, fresh, after, leaves, spares⟩
    have searched := findItem_ok cb key (holds.seg low) s.bound ((holds.short low).trans (Nat.le_succ _))
    rw [new] at searched
    refine ⟨a, next, ?_, fresh, ?_, leaves, spares⟩
    · rw [if_neg head, bound_bind, bind_ok searched, run_ite, Option.map_none, if_neg (not_not.mpr rfl), bind_ok run,
        run_pure]
    · rw [eq_false empty]
      exact after

theorem hashSetItemUniq_new (holds : Holds cb s chains good) (system : Allocator (MnHashItem K V)) (key : K)
    (value : V) (new : visible cb s.vars.table.length chains key = none) :
    ∃ a next, hashSetItemUniq cb system key value s = .ok ((none, none), next) ∧
      (∀ x ∈ allOf s.vars.table.length chains, x.1 ≠ a) ∧
      Holds cb next (Function.update chains (place cb s.vars.table.length key)
        ((a, key, value) :: chains (place cb s.vars.table.length key)))
        (Function.update good (place cb s.vars.table.length key) (chains (place cb s.vars.table.length key) = [])) ∧
      Leaves (s.vars.elnum + 1) s.vars.finished s next := by
  rcases hashSetItemUniq_spares holds system key value new with ⟨a, next, run, fresh, after, leaves, -⟩
  exact ⟨a, next, run, fresh, after, leaves⟩

/-- What it does where the key is there. -/
theorem hashSetItemUniq_old (holds : Holds cb s chains good) (system : Allocator (MnHashItem K V)) (key : K)
    (value : V) {x : Entry K V} (old : visible cb s.vars.table.length chains key = some x) :
    ∃ next front back, hashSetItemUniq cb system key value s = .ok ((some x.2.1, some x.2.2), next) ∧
      chains (place cb s.vars.table.length key) = front ++ x :: back ∧ (∀ y ∈ front, hit cb key y = false) ∧
      hit cb key x = true ∧
      Holds cb next (Function.update chains (place cb s.vars.table.length key)
        (front ++ (x.1, key, value) :: back)) good ∧
      Leaves s.vars.elnum (finish cb s.vars.finished x.2) s next := by
  have low := place_lt cb holds.nonempty key
  have slot := readSlot_ok (holds.head low)
  have searched := findItem_ok cb key (holds.seg low) s.bound ((holds.short low).trans (Nat.le_succ _))
  rw [visible] at old
  rw [hashSetItemUniq, bind_ok (slotOf_ok holds.nonempty key), bind_ok slot, run_ite]
  generalize place : place cb s.vars.table.length key = i at low slot old searched
  rw [old] at searched
  rcases List.find?_eq_some_iff_append.mp old with ⟨found, front, back, shape, before⟩
  have there : x ∈ chains i := shape ▸ List.mem_append_right _ List.mem_cons_self
  have head : ¬ (chains i).head?.map Prod.fst = none := by
    cases chain : chains i with
    | nil => exact absurd (chain ▸ there) List.not_mem_nil
    | cons y rest => exact Option.some_ne_none _
  rcases holds.cell low there with ⟨n, cell, pair⟩
  rcases callFini_ok cb n.key n.value s with ⟨res, called⟩
  refine ⟨_, front, back, ?_, shape, fun y inside => ?_, found, holds.assign low shape cell place
    x.2, rfl, rfl, rfl, rfl⟩
  · rw [if_neg head, bound_bind, bind_ok searched, run_ite, Option.map_some, if_pos (Option.some_ne_none _),
      bind_ok (load_ok cell), bind_ok called,
      bind_ok (update_ok (s := logged cb s (n.key, n.value)) _ cell), bind_ok (update_ok _ (Finmap.lookup_insert _)),
      run_pure, ← pair]
    simp only [Finmap.insert_insert, logged]
    rfl
  · exact Bool.not_eq_true' .. |>.mp (before y inside)

end MnCommon.Hash
