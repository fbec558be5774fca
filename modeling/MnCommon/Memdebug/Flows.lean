import MnCommon.Memdebug.Accounting

/-! What comes and goes in each context, over whole runs: the sums of what a client has been told of it, against the
bytes that are allocated. -/

namespace MnCommon.Memdebug

open Memory

/-- The calls of `memdebug.h`. -/
inductive Call where
  | op (op : MemdebugOp)
  | register
  | setRuntimeScope (n : Int)
  | getRuntimeScope
  | stat (n : Int)
  | traverseCtxes (cb : List MemdebugStat → MemdebugStat → Int)

inductive Answer where
  | ptr (res : Ptr)
  | number (n : Int)
  | stats (told : List MemdebugStat)

def serve (system : System) : Call → MemdebugProg Answer
  | .op op => step system op >>= fun res => pure (.ptr res)
  | .register => memdebugRegister >>= fun id => pure (.number id)
  | .setRuntimeScope n => memdebugSetRuntimeScope n >>= fun old => pure (.number old)
  | .getRuntimeScope => memdebugGetRuntimeScope >>= fun n => pure (.number n)
  | .stat n => memdebugStat n >>= fun st => pure (.stats [st])
  | .traverseCtxes cb => memdebugTraverseCtxes cb >>= fun told => pure (.stats told)

/-- What a client has been told of one context, added up. -/
structure Heard where
  allocated : UInt64
  freed : UInt64

abbrev HeardOf := Nat → Heard

def hear (heard : HeardOf) (st : MemdebugStat) : HeardOf :=
  Function.update heard st.number
    ⟨(heard st.number).allocated + st.ncallocated, (heard st.number).freed + st.ncfreed⟩

def hearAnswer (heard : HeardOf) : Answer → HeardOf
  | .ptr _ => heard
  | .number _ => heard
  | .stats told => told.foldl hear heard

/-- The program with a client that listens. -/
structure Client where
  store : MemdebugStore
  heard : HeardOf

def clientStep (system : System) (call : Call) (c : Client) : Except Fault (Answer × Client) :=
  (serve system call c.store).map fun out => (out.1, ⟨out.2, hearAnswer c.heard out.1⟩)

/-- What is allocated is what has come less what has gone, as numbers of the type `size_t`. -/
def Flows (c : Client) : Prop :=
  ∀ (k : Nat) ctx, c.store.vars.ctxes[k]? = some ctx →
    ctx.nallocated = ((c.heard k).allocated + ctx.ncallocated) - ((c.heard k).freed + ctx.ncfreed)

/-- The call returns and leaves the sums right. -/
def Keeps (system : System) (call : Call) (c : Client) : Prop :=
  ∃ answer next, clientStep system call c = .ok (answer, next) ∧ Flows next

/-- How often a call for the context `n` is booked on the context `k`. -/
def bookings (n : Int) (v : Contexts) (k : Nat) : UInt64 :=
  (if n = k then 1 else 0) + (if v.runtimeScope = k then 1 else 0)

def usableOf (ptr : Ptr) (h : Heap Block) : UInt64 := ptr.elim 0 fun a => (h.lookup a).elim 0 Block.usable

/-- What `memdebug_realloc` puts down as allocated, for a block that has had so many usable bytes. -/
def putDown (sz sz0 : UInt64) : UInt64 := if sz < sz0 then 0 else sz - sz0

/-- By how much more the usable bytes of a block grow than `memdebug_realloc` puts down. -/
def misfit (system : System) (ptr : Ptr) (sz : UInt64) (s : MemdebugStore) : UInt64 :=
  if system.grants s.tick = true ∧ ¬ (ptr ≠ none ∧ sz = 0 ∧ system.releases s.tick = true) then
    system.usable s.tick sz.toNat - usableOf ptr s.heap - putDown sz (usableOf ptr s.heap)
  else 0 - usableOf ptr s.heap

/-- Where a block is resized, what is put down is what it has grown by, on every context that it is booked on;
no block is released twice. -/
def Even (system : System) (call : Call) (s : MemdebugStore) : Prop :=
  match call with
  | .op (.realloc n ptr sz) => ∀ k < s.vars.ctxes.length, bookings n s.vars k * misfit system ptr sz s = 0
  | .op (.reallocf _ (some _) sz) => ¬ (sz = 0 ∧ system.releases s.tick = true)
  | _ => True

/-- Numbers are those of contexts, arguments NULL or live blocks, whatever context they were allocated with. -/
def Allowed (call : Call) (s : MemdebugStore) : Prop :=
  match call with
  | .op op => 0 ≤ numberOf op ∧ numberOf op < countofCtxes ∧ ∀ a ∈ argument op, (s.heap.lookup a).isSome = true
  | .register => s.vars.ctxes.length < countofCtxes
  | .stat n => 0 ≤ n ∧ n < s.vars.ctxes.length
  | .setRuntimeScope _ => True
  | .getRuntimeScope => True
  | .traverseCtxes _ => True

variable {system : System} {s next : MemdebugStore} {n : Int} {a : Addr} {block : Block} {ptr : Ptr} {sz u w x : UInt64}
  {entry : Entry} {v v' v'' : Contexts} {c : Client} {heard : HeardOf}

/-- What a context has too much, against the sums. -/
def drift (told : Heard) (ctx : MemdebugCtx) : UInt64 :=
  ctx.nallocated - ((told.allocated + ctx.ncallocated) - (told.freed + ctx.ncfreed))

theorem flows_iff_drift : Flows c ↔ ∀ (k : Nat) ctx, c.store.vars.ctxes[k]? = some ctx → drift (c.heard k) ctx = 0 := by
  have zero (x y : UInt64) : x = y ↔ x - y = 0 := by grind
  refine forall_congr' fun k => forall_congr' fun ctx => ?_
  rw [drift, ← zero]

/-- An entry on a context moves its drift by so much. -/
def Moves (entry : Entry) (u w : UInt64) : Prop := ∀ told ctx, drift told (entry u ctx) = drift told ctx + w

theorem inc_moves (more : UInt64 → UInt64) (u : UInt64) : Moves (inc more) u (u - more u) := by
  intro told ctx
  change ctx.nallocated + u - ((told.allocated + (ctx.ncallocated + more u)) - (told.freed + ctx.ncfreed)) = _
  rw [drift]
  grind

theorem dec_moves (more : UInt64 → UInt64) (u : UInt64) : Moves (dec more) u (more u - u) := by
  intro told ctx
  change ctx.nallocated - u - ((told.allocated + ctx.ncallocated) - (told.freed + (ctx.ncfreed + more u))) = _
  rw [drift]
  grind

/-- A call for a context moves the drift of every context by `w`, as often as it is booked there. -/
structure Drifts (n : Int) (w : UInt64) (v v' : Contexts) : Prop where
  length : v'.ctxes.length = v.ctxes.length
  scope : v'.runtimeScope = v.runtimeScope
  moved : ∀ (k : Nat) ctx, v'.ctxes[k]? = some ctx → ∃ before, v.ctxes[k]? = some before ∧
    ∀ told, drift told ctx = drift told before + bookings n v k * w

theorem Drifts.refl (n : Int) (v : Contexts) : Drifts n 0 v v := by
  refine ⟨rfl, rfl, fun k ctx there => ⟨ctx, there, fun told => ?_⟩⟩
  rw [UInt64.mul_zero, UInt64.add_zero]

theorem Drifts.trans (first : Drifts n w v v') (later : Drifts n x v' v'') : Drifts n (w + x) v v'' := by
  refine ⟨later.length.trans first.length, later.scope.trans first.scope, fun k ctx there => ?_⟩
  rcases later.moved k ctx there with ⟨middle, known, second⟩
  rcases first.moved k middle known with ⟨before, known', front⟩
  refine ⟨before, known', fun told => ?_⟩
  have same : bookings n v' k = bookings n v k := by rw [bookings, bookings, first.scope]
  rw [second told, front told, same, UInt64.mul_add, UInt64.add_assoc]

theorem bookOn_length (entry : Entry) (u : UInt64) (n : Int) (v : Contexts) :
    (bookOn entry u n v).ctxes.length = v.ctxes.length := by
  rw [bookOn]
  split
  · exact List.length_modify ..
  · rfl

theorem bookOn_scope (entry : Entry) (u : UInt64) (n : Int) (v : Contexts) :
    (bookOn entry u n v).runtimeScope = v.runtimeScope := by
  rw [bookOn]
  split <;> rfl

/-- What the entries of `MEMDEBUG_BODY` make of the contexts. -/
def charge (entry : Entry) (u : UInt64) (n : Int) (v : Contexts) : Contexts :=
  if 0 ≤ v.runtimeScope then bookOn entry u v.runtimeScope (bookOn entry u n v) else bookOn entry u n v

theorem charge_drifts (moves : Moves entry u w) (low : 0 ≤ n) (v : Contexts) : Drifts n w v (charge entry u n v) := by
  have once (m : Int) (t : Contexts) (positive : 0 ≤ m) (k : Nat) ctx (there : (bookOn entry u m t).ctxes[k]? = some ctx) :
      ∃ before, t.ctxes[k]? = some before ∧
        ∀ told, drift told ctx = drift told before + (if m = k then 1 else 0) * w := by
    rcases bookOn_spec entry u positive there with ⟨before, known, same⟩
    refine ⟨before, known, fun told => ?_⟩
    rw [same]
    split
    · rw [moves, UInt64.one_mul]
    · rw [UInt64.zero_mul, UInt64.add_zero]
  rw [charge]
  split
  next set =>
    refine ⟨?_, ?_, fun k ctx there => ?_⟩
    · rw [bookOn_length, bookOn_length]
    · rw [bookOn_scope, bookOn_scope]
    · rcases once v.runtimeScope _ set k ctx there with ⟨middle, known, second⟩
      rcases once n v low k middle known with ⟨before, known', first⟩
      refine ⟨before, known', fun told => ?_⟩
      rw [second, first, bookings, UInt64.add_mul, UInt64.add_assoc]
  next unset =>
    refine ⟨bookOn_length .., bookOn_scope .., fun k ctx there => ?_⟩
    rcases once n v low k ctx there with ⟨before, known, first⟩
    refine ⟨before, known, fun told => ?_⟩
    have other : ¬ v.runtimeScope = k := by omega
    rw [first, bookings, if_neg other, UInt64.add_zero]

/-- The runtime scope, if it is set, is the number of a context. -/
structure Bounded (v : Contexts) : Prop where
  within : v.runtimeScope < v.ctxes.length
  few : v.ctxes.length ≤ countofCtxes

theorem Drifts.bounded (drifts : Drifts n w v v') (bounded : Bounded v) : Bounded v' := by
  refine ⟨?_, ?_⟩
  · rw [drifts.length, drifts.scope]
    exact bounded.within
  · rw [drifts.length]
    exact bounded.few

theorem memdebugBody_charge (entry : Entry) (bounded : Bounded s.vars) (low : 0 ≤ n) (high : n < countofCtxes)
    (cell : s.heap.lookup a = some block) :
    memdebugBody n entry (some a) s = .ok ((), { s with vars := charge entry block.usable n s.vars }) := by
  let booked : MemdebugStore := { s with vars := bookOn entry block.usable n s.vars }
  have booking : setVars (bookOn entry block.usable n) s = .ok ((), booked) := rfl
  have scope : booked.vars.runtimeScope = s.vars.runtimeScope := bookOn_scope ..
  have within : booked.vars.runtimeScope < countofCtxes := by
    rw [scope]
    have inside := bounded.within
    have few := bounded.few
    omega
  rw [memdebugBody, if_neg (Option.some_ne_none a), decide_eq_true ⟨low, high⟩, check_bind, bind_ok (usable_some cell),
    bind_ok booking, vars_bind, charge, decide_eq_true within, check_bind, scope]
  split <;> rfl

theorem body_drifts (moves : Moves entry block.usable w) (bounded : Bounded s.vars) (low : 0 ≤ n) (high : n < countofCtxes)
    (cell : s.heap.lookup a = some block) :
    ∃ next, memdebugBody n entry (some a) s = .ok ((), next) ∧ next.heap = s.heap ∧ next.tick = s.tick ∧
      Drifts n w s.vars next.vars :=
  ⟨_, memdebugBody_charge entry bounded low high cell, rfl, rfl, charge_drifts moves low s.vars⟩

theorem Drifts.of_eq (same : v' = v) (n : Int) : Drifts n 0 v v' := by
  rw [same]
  exact .refl n v

/-- A request leaves the contexts alone; the block that it hands out, if there is one, is live. -/
def Hands (request : MemdebugProg Ptr) (s : MemdebugStore) : Prop :=
  ∃ res next, request s = .ok (res, next) ∧ next.vars = s.vars ∧ ∀ a, res = some a → ∃ block, next.heap.lookup a = some block

theorem Hands.null {request : MemdebugProg Ptr} (ran : request s = .ok (none, next)) (same : next.vars = s.vars) :
    Hands request s := by
  refine ⟨none, next, ran, same, fun a here => ?_⟩
  cases here

theorem malloc_granted (n : Int) (sz : Nat) (yes : system.grants s.tick = true) :
    ∃ b next, malloc system n sz s = .ok (some b, next) ∧ next.vars = s.vars ∧
      next.heap.lookup b = some ⟨system.usable s.tick sz, n⟩ := by
  rw [malloc, if_pos yes]
  exact ⟨_, _, rfl, rfl, Finmap.lookup_insert _⟩

theorem malloc_refused (n : Int) (sz : Nat) (no : ¬ system.grants s.tick = true) :
    malloc system n sz s = .ok (none, { s with tick := s.tick + 1 }) := if_neg no

theorem malloc_hands (system : System) (n : Int) (sz : Nat) (s : MemdebugStore) : Hands (malloc system n sz) s := by
  by_cases yes : system.grants s.tick = true
  · rcases malloc_granted n sz yes with ⟨b, next, ran, same, cell⟩
    refine ⟨some b, next, ran, same, fun a here => ?_⟩
    cases here
    exact ⟨_, cell⟩
  · exact .null (malloc_refused n sz yes) rfl

theorem calloc_hands (system : System) (n : Int) (e sz : Nat) (s : MemdebugStore) : Hands (calloc system n e sz) s := by
  rw [calloc]
  split
  · exact malloc_hands system n (e * sz) s
  · exact .null rfl rfl

/-- A block that is resized. -/
theorem realloc_resized (n : Int) (cell : s.heap.lookup a = some block) {sz : Nat}
    (kept : ¬ (sz = 0 ∧ system.releases s.tick = true)) (yes : system.grants s.tick = true) :
    ∃ b next, realloc system n (some a) sz s = .ok (some b, next) ∧ next.vars = s.vars ∧
      next.heap.lookup b = some ⟨system.usable s.tick sz, n⟩ := by
  rw [realloc, bind_ok (load_ok cell)]
  exact ⟨_, _, (if_neg kept).trans (if_pos yes), rfl, Finmap.lookup_insert _⟩

theorem booked_drifts {request : MemdebugProg Ptr} (hands : Hands request s) (bounded : Bounded s.vars) (low : 0 ≤ n)
    (high : n < countofCtxes) : ∃ res next, booked n request s = .ok (res, next) ∧ Drifts n 0 s.vars next.vars := by
  rcases hands with ⟨res, middle, ran, same, live⟩
  rw [booked, bind_ok ran]
  cases res with
  | none => exact ⟨none, middle, rfl, .of_eq same n⟩
  | some a =>
      rcases live a rfl with ⟨block, cell⟩
      have moves : Moves (inc id) block.usable 0 := by
        have some := inc_moves id block.usable
        rwa [id, UInt64.sub_self] at some
      rw [← same] at bounded ⊢
      rcases body_drifts moves bounded low high cell with ⟨next, booking, -, -, drifts⟩
      refine ⟨some a, next, ?_, drifts⟩
      rw [memdebugBodyInc, bind_ok booking]
      rfl

/-- A release that is booked. -/
theorem release_drifts (bounded : Bounded s.vars) (low : 0 ≤ n) (high : n < countofCtxes)
    (live : ∀ a, ptr = some a → ∃ block, s.heap.lookup a = some block) :
    ∃ next, memdebugBodyDec n ptr s = .ok ((), next) ∧ next.heap = s.heap ∧ next.tick = s.tick ∧
      Drifts n 0 s.vars next.vars := by
  cases ptr with
  | none => exact ⟨s, rfl, rfl, rfl, .refl n s.vars⟩
  | some a =>
      rcases live a rfl with ⟨block, cell⟩
      have moves : Moves (dec id) block.usable 0 := by
        have some := dec_moves id block.usable
        rwa [id, UInt64.sub_self] at some
      exact body_drifts moves bounded low high cell

theorem reallocf_hands (system : System) (n : Int) (live : ∀ a, ptr = some a → ∃ block, s.heap.lookup a = some block) {sz : Nat}
    (kept : ∀ a, ptr = some a → ¬ (sz = 0 ∧ system.releases s.tick = true)) : Hands (reallocf system n ptr sz) s := by
  cases ptr with
  | none =>
      rcases malloc_hands system n sz s with ⟨res, next, ran, same, found⟩
      refine ⟨res, next, ?_, same, found⟩
      rw [reallocf, realloc, bind_ok ran]
      cases res with
      | none => rfl
      | some b => rfl
  | some a =>
      rcases live a rfl with ⟨block, cell⟩
      by_cases yes : system.grants s.tick = true
      · rcases realloc_resized n cell (kept a rfl) yes with ⟨b, next, ran, same, cell'⟩
        refine ⟨some b, next, ?_, same, fun c here => ?_⟩
        · rw [reallocf, bind_ok ran, if_neg (Option.some_ne_none b)]
          rfl
        · cases here
          exact ⟨_, cell'⟩
      · have no : system.grants s.tick = false := Bool.eq_false_iff.mpr yes
        have freed : free (some a) (⟨s.heap, s.vars, s.tick + 1⟩ : MemdebugStore) =
            .ok ((), ⟨s.heap.erase a, s.vars, s.tick + 1⟩) := free_ok cell
        have ran : reallocf system n (some a) sz s = .ok (none, ⟨s.heap.erase a, s.vars, s.tick + 1⟩) := by
          rw [reallocf, bind_ok (realloc_refused system n cell (kept a rfl) no), if_pos rfl, bind_ok freed]
          rfl
        exact .null ran rfl

theorem memdebugReallocf_drifts (bounded : Bounded s.vars) (low : 0 ≤ n) (high : n < countofCtxes)
    (live : ∀ a, ptr = some a → ∃ block, s.heap.lookup a = some block)
    (kept : ∀ a, ptr = some a → ¬ (sz = 0 ∧ system.releases s.tick = true)) :
    ∃ res next, memdebugReallocf system n ptr sz s = .ok (res, next) ∧ Drifts n 0 s.vars next.vars := by
  rcases release_drifts bounded low high live with ⟨middle, ran, heap, tick, first⟩
  have hands : Hands (reallocf system n ptr sz.toNat) middle := by
    apply reallocf_hands
    · rw [heap]
      exact live
    · intro a here both
      rw [tick] at both
      exact kept a here ⟨UInt64.toNat_inj.mp both.1, both.2⟩
  rcases booked_drifts hands (first.bounded bounded) low high with ⟨res, next, ran', later⟩
  refine ⟨res, next, ?_, first.trans later⟩
  rw [memdebugReallocf, bind_ok ran, ran']

/-- A block that is released twice. -/
theorem memdebugReallocf_faults (bounded : Bounded s.vars) (low : 0 ≤ n) (high : n < countofCtxes)
    (cell : s.heap.lookup a = some block) (released : sz = 0 ∧ system.releases s.tick = true) :
    memdebugReallocf system n (some a) sz s = .error .dangling := by
  have live : ∀ b, some a = some b → ∃ block, s.heap.lookup b = some block := by
    intro b here
    cases here
    exact ⟨block, cell⟩
  rcases release_drifts bounded low high live with ⟨middle, ran, heap, tick, -⟩
  have cell' : middle.heap.lookup a = some block := by rw [heap, cell]
  have released' : sz.toNat = 0 ∧ system.releases middle.tick = true := by
    rw [tick]
    exact ⟨congrArg UInt64.toNat released.1, released.2⟩
  have gone : free (some a) (⟨middle.heap.erase a, middle.vars, middle.tick + 1⟩ : MemdebugStore) =
      .error .dangling := by
    simp only [free, Finmap.lookup_erase]
  rw [memdebugReallocf, bind_ok ran, booked, run_bind, reallocf,
    bind_ok (realloc_released system n cell' released'), if_pos rfl, run_bind, gone]

theorem misfit_granted (yes : system.grants s.tick = true) (kept : ¬ (ptr ≠ none ∧ sz = 0 ∧ system.releases s.tick = true)) :
    misfit system ptr sz s =
      system.usable s.tick sz.toNat - usableOf ptr s.heap - putDown sz (usableOf ptr s.heap) := by
  rw [misfit, if_pos ⟨yes, kept⟩]

theorem misfit_refused (no : ¬ (system.grants s.tick = true ∧ ¬ (ptr ≠ none ∧ sz = 0 ∧ system.releases s.tick = true))) :
    misfit system ptr sz s = 0 - usableOf ptr s.heap := by
  rw [misfit, if_neg no]

/-- The last booking of `memdebug_realloc`, on a block that is live. -/
theorem grown_drifts (bounded : Bounded s.vars) (low : 0 ≤ n) (high : n < countofCtxes) (sz sz0 : UInt64)
    (cell : s.heap.lookup a = some ⟨u, n⟩) :
    ∃ next, (memdebugBody n (inc fun _ => putDown sz sz0) (some a) >>= fun _ => pure (some a)) s = .ok (some a, next) ∧
      Drifts n (u - putDown sz sz0) s.vars next.vars := by
  have moves : Moves (inc fun _ => putDown sz sz0) (Block.mk u n).usable (u - putDown sz sz0) := inc_moves _ u
  rcases body_drifts moves bounded low high cell with ⟨next, ran, -, -, drifts⟩
  refine ⟨next, ?_, drifts⟩
  rw [bind_ok ran]
  rfl

theorem memdebugRealloc_null (bounded : Bounded s.vars) (low : 0 ≤ n) (high : n < countofCtxes) (sz : UInt64) :
    ∃ res next, memdebugRealloc system n none sz s = .ok (res, next) ∧
      Drifts n (misfit system none sz s) s.vars next.vars := by
  have usable : mallocUsableSize none s = .ok (0, s) := rfl
  have nothing : memdebugBody n (dec fun _ => 0) none s = .ok ((), s) := rfl
  rw [memdebugRealloc, bind_ok usable, bind_ok nothing, realloc]
  by_cases yes : system.grants s.tick = true
  · rcases malloc_granted n sz.toNat yes with ⟨b, middle, ran, same, cell⟩
    have bytes : misfit system none sz s = system.usable s.tick sz.toNat - putDown sz 0 := by
      rw [misfit_granted yes fun both => both.1 rfl, usableOf, Option.elim_none, UInt64.sub_zero]
    rw [bytes, ← same, bind_ok ran]
    rw [← same] at bounded
    rcases grown_drifts bounded low high sz 0 cell with ⟨next, ran', drifts⟩
    exact ⟨some b, next, ran', drifts⟩
  · have bytes : misfit system none sz s = 0 := by
      rw [misfit_refused fun both => yes both.1, usableOf, Option.elim_none, UInt64.sub_zero]
    rw [bytes, bind_ok (malloc_refused n sz.toNat yes)]
    exact ⟨none, _, rfl, .refl n s.vars⟩

theorem memdebugRealloc_some (bounded : Bounded s.vars) (low : 0 ≤ n) (high : n < countofCtxes)
    (cell : s.heap.lookup a = some block) (sz : UInt64) :
    ∃ res next, memdebugRealloc system n (some a) sz s = .ok (res, next) ∧
      Drifts n (misfit system (some a) sz s) s.vars next.vars := by
  have sz0 : usableOf (some a) s.heap = block.usable := by rw [usableOf, Option.elim_some, cell, Option.elim_some]
  have moves : Moves (dec fun _ => 0) block.usable (0 - block.usable) := dec_moves _ _
  rcases body_drifts moves bounded low high cell with ⟨charged, ran, heap, tick, first⟩
  have cell' : charged.heap.lookup a = some block := by rw [heap, cell]
  rw [memdebugRealloc, bind_ok (usable_some cell), bind_ok ran]
  by_cases released : sz = 0 ∧ system.releases s.tick = true
  · have released' : sz.toNat = 0 ∧ system.releases charged.tick = true := by
      rw [tick]
      exact ⟨congrArg UInt64.toNat released.1, released.2⟩
    have bytes : misfit system (some a) sz s = 0 - block.usable := by
      rw [misfit_refused fun both => both.2 ⟨Option.some_ne_none a, released⟩, sz0]
    rw [bytes, bind_ok (realloc_released system n cell' released')]
    exact ⟨none, _, rfl, first⟩
  have kept : ¬ (sz.toNat = 0 ∧ system.releases charged.tick = true) := by
    rw [tick]
    exact fun both => released ⟨UInt64.toNat_inj.mp both.1, both.2⟩
  by_cases yes : system.grants s.tick = true
  · have yes' : system.grants charged.tick = true := by rw [tick, yes]
    have bytes : misfit system (some a) sz s =
        0 - block.usable + (system.usable charged.tick sz.toNat - putDown sz block.usable) := by
      rw [misfit_granted yes fun both => released both.2, sz0, tick]
      grind
    rcases realloc_resized n cell' kept yes' with ⟨b, middle, ran', same, grown⟩
    have between : Drifts n (0 - block.usable) s.vars middle.vars := by rwa [same]
    rcases grown_drifts (between.bounded bounded) low high sz block.usable grown with ⟨next, ran'', later⟩
    rw [bytes, bind_ok ran']
    exact ⟨some b, next, ran'', between.trans later⟩
  · have no : system.grants charged.tick = false := by rw [tick, Bool.eq_false_iff.mpr yes]
    have bytes : misfit system (some a) sz s = 0 - block.usable := by
      rw [misfit_refused fun both => yes both.1, sz0]
    rw [bytes, bind_ok (realloc_refused system n cell' kept no)]
    exact ⟨none, _, rfl, first⟩

theorem memdebugRealloc_drifts (bounded : Bounded s.vars) (low : 0 ≤ n) (high : n < countofCtxes)
    (live : ∀ a, ptr = some a → ∃ block, s.heap.lookup a = some block) (sz : UInt64) :
    ∃ res next, memdebugRealloc system n ptr sz s = .ok (res, next) ∧
      Drifts n (misfit system ptr sz s) s.vars next.vars := by
  cases ptr with
  | none => exact memdebugRealloc_null bounded low high sz
  | some a =>
      rcases live a rfl with ⟨block, cell⟩
      exact memdebugRealloc_some bounded low high cell sz

theorem memdebugFree_drifts (bounded : Bounded s.vars) (low : 0 ≤ n) (high : n < countofCtxes)
    (live : ∀ a, ptr = some a → ∃ block, s.heap.lookup a = some block) :
    ∃ next, memdebugFree n ptr s = .ok ((), next) ∧ Drifts n 0 s.vars next.vars := by
  rcases release_drifts bounded low high live with ⟨middle, ran, heap, -, drifts⟩
  rw [memdebugFree, bind_ok ran]
  cases ptr with
  | none => exact ⟨middle, rfl, drifts⟩
  | some a =>
      rcases live a rfl with ⟨block, cell⟩
      rw [← heap] at cell
      exact ⟨_, free_ok cell, drifts⟩

theorem clientStep_ok {call : Call} {answer : Answer} (ran : serve system call c.store = .ok (answer, next)) :
    clientStep system call c = .ok (answer, ⟨next, hearAnswer c.heard answer⟩) := by
  rw [clientStep, ran]
  rfl

/-- The sums are right, and nothing has been heard of contexts that are not registered. -/
structure Sound (c : Client) : Prop where
  flows : Flows c
  bounded : Bounded c.store.vars
  unheard : ∀ k, c.store.vars.ctxes.length ≤ k → c.heard k = ⟨0, 0⟩

/-- The sums stay right exactly if there is nothing to book or nothing missing in what is booked. -/
theorem Sound.flows_iff (sound : Sound c) (drifts : Drifts n w c.store.vars next.vars) :
    Flows ⟨next, c.heard⟩ ↔ ∀ k < c.store.vars.ctxes.length, bookings n c.store.vars k * w = 0 := by
  have before := flows_iff_drift.mp sound.flows
  rw [flows_iff_drift]
  constructor
  · intro after k inside
    rw [← drifts.length] at inside
    have there := List.getElem?_eq_getElem inside
    rcases drifts.moved k _ there with ⟨ctx, known, moved⟩
    have still := after k _ there
    rwa [moved, before k ctx known, UInt64.zero_add] at still
  · intro zero k ctx there
    rcases drifts.moved k ctx there with ⟨old, known, moved⟩
    have inside := (List.getElem?_eq_some_iff.mp known).1
    exact (moved (c.heard k)).trans (by rw [before k old known, zero k inside, UInt64.add_zero])

theorem Sound.after (sound : Sound c) (drifts : Drifts n w c.store.vars next.vars)
    (even : ∀ k < c.store.vars.ctxes.length, bookings n c.store.vars k * w = 0) : Sound ⟨next, c.heard⟩ := by
  refine ⟨(sound.flows_iff drifts).mpr even, drifts.bounded sound.bounded, fun k outside => ?_⟩
  change next.vars.ctxes.length ≤ k at outside
  rw [drifts.length] at outside
  exact sound.unheard k outside

/-- A call keeps the sums exactly under some condition. -/
def Settles (system : System) (call : Call) (c : Client) (condition : Prop) : Prop :=
  (condition → ∃ answer next, clientStep system call c = .ok (answer, next) ∧ Sound next) ∧
    (¬ condition → ¬ Keeps system call c)

theorem settles_always {call : Call} (ran : ∃ answer next, clientStep system call c = .ok (answer, next) ∧ Sound next) :
    Settles system call c True := ⟨fun _ => ran, fun no => absurd trivial no⟩

theorem Sound.settles (sound : Sound c) {op : MemdebugOp}
    (ran : ∃ res next, step system op c.store = .ok (res, next) ∧ Drifts n 0 c.store.vars next.vars) :
    Settles system (.op op) c True := by
  rcases ran with ⟨res, next, ran, drifts⟩
  refine settles_always ⟨.ptr res, ⟨next, c.heard⟩, clientStep_ok ?_, ?_⟩
  · rw [serve, bind_ok ran]
    rfl
  · exact sound.after drifts fun _ _ => UInt64.mul_zero

theorem realloc_settles (sound : Sound c) (low : 0 ≤ n) (high : n < countofCtxes)
    (live : ∀ a, ptr = some a → ∃ block, c.store.heap.lookup a = some block) (sz : UInt64) :
    Settles system (.op (.realloc n ptr sz)) c (Even system (.op (.realloc n ptr sz)) c.store) := by
  rcases memdebugRealloc_drifts sound.bounded low high live sz with ⟨res, next, ran, drifts⟩
  have called : clientStep system (.op (.realloc n ptr sz)) c = .ok (.ptr res, ⟨next, c.heard⟩) := by
    apply clientStep_ok
    rw [serve, step, bind_ok ran]
    rfl
  refine ⟨fun even => ⟨_, _, called, sound.after drifts even⟩, fun odd ⟨answer, other, called', flows⟩ => ?_⟩
  cases called.symm.trans called'
  exact odd ((sound.flows_iff drifts).mp flows)

theorem reallocf_settles (sound : Sound c) (low : 0 ≤ n) (high : n < countofCtxes)
    (live : ∀ a, ptr = some a → ∃ block, c.store.heap.lookup a = some block) (sz : UInt64) :
    Settles system (.op (.reallocf n ptr sz)) c (Even system (.op (.reallocf n ptr sz)) c.store) := by
  cases ptr with
  | none =>
      have kept : ∀ a, (none : Ptr) = some a → ¬ (sz = 0 ∧ system.releases c.store.tick = true) := by
        intro a here
        cases here
      exact sound.settles (memdebugReallocf_drifts sound.bounded low high live kept)
  | some a =>
      constructor
      · intro kept
        have settles : Settles system (.op (.reallocf n (some a) sz)) c True :=
          sound.settles (memdebugReallocf_drifts sound.bounded low high live fun _ _ => kept)
        exact settles.1 trivial
      · intro spoilt ⟨answer, other, called, _⟩
        rcases live a rfl with ⟨block, cell⟩
        have faults := memdebugReallocf_faults sound.bounded low high cell (not_not.mp spoilt)
        rw [clientStep, serve, step, run_bind, faults] at called
        cases called

theorem op_settles (sound : Sound c) (op : MemdebugOp) (allowed : Allowed (.op op) c.store) :
    Settles system (.op op) c (Even system (.op op) c.store) := by
  rcases allowed with ⟨low, high, there⟩
  have live : ∀ a, argument op = some a → ∃ block, c.store.heap.lookup a = some block :=
    fun a here => Option.isSome_iff_exists.mp (there a here)
  cases op with
  | malloc n sz => exact sound.settles (booked_drifts (malloc_hands system n sz.toNat c.store) sound.bounded low high)
  | calloc n e sz =>
      exact sound.settles (booked_drifts (calloc_hands system n e.toNat sz.toNat c.store) sound.bounded low high)
  | strdup n str =>
      exact sound.settles (booked_drifts (malloc_hands system n (str.length + 1) c.store) sound.bounded low high)
  | strndup n str len =>
      exact sound.settles
        (booked_drifts (malloc_hands system n (min str.length len.toNat + 1) c.store) sound.bounded low high)
  | free n ptr =>
      rcases memdebugFree_drifts sound.bounded low high live with ⟨next, ran, drifts⟩
      exact sound.settles ⟨none, next, bind_ok ran _, drifts⟩
  | realloc n ptr sz => exact realloc_settles sound low high live sz
  | reallocf n ptr sz => exact reallocf_settles sound low high live sz

/-- A context tells what has come and gone, and the client adds it up. -/
theorem tell_sound (sound : Sound c) {i : Nat} (inside : i < c.store.vars.ctxes.length) :
    ∃ st next, tell i c.store = .ok (st, next) ∧ next.vars.ctxes.length = c.store.vars.ctxes.length ∧
      Sound ⟨next, hear c.heard st⟩ := by
  let ctx := c.store.vars.ctxes[i]
  let st : MemdebugStat := ⟨i, ctx.nallocated, ctx.ncallocated, ctx.ncfreed, ctx.nitems⟩
  let told : Contexts :=
    { c.store.vars with ctxes := c.store.vars.ctxes.set i { ctx with ncallocated := 0, ncfreed := 0 } }
  have there : c.store.vars.ctxes[i]? = some ctx := List.getElem?_eq_getElem inside
  have ran : tell i c.store = .ok (st, { c.store with vars := told }) := by
    rw [tell, vars_bind, there]
    rfl
  have length : told.ctxes.length = c.store.vars.ctxes.length := List.length_set
  refine ⟨st, _, ran, length, ?_, ?_, ?_⟩
  · intro k other known
    change (c.store.vars.ctxes.set i _)[k]? = some other at known
    by_cases here : i = k
    · subst here
      rw [List.getElem?_set_self inside] at known
      cases known
      have right := sound.flows i ctx there
      change ctx.nallocated = ((hear c.heard st i).allocated + 0) - ((hear c.heard st i).freed + 0)
      rw [hear, Function.update_self, right, UInt64.add_zero, UInt64.add_zero]
    · rw [List.getElem?_set_ne here] at known
      change other.nallocated = ((hear c.heard st k).allocated + _) - ((hear c.heard st k).freed + _)
      rw [hear, Function.update_of_ne (Ne.symm here)]
      exact sound.flows k other known
  · refine ⟨?_, ?_⟩
    · change c.store.vars.runtimeScope < told.ctxes.length
      rw [length]
      exact sound.bounded.within
    · rw [length]
      exact sound.bounded.few
  · intro k outside
    change told.ctxes.length ≤ k at outside
    rw [length] at outside
    have other : k ≠ i := by omega
    change hear c.heard st k = _
    rw [hear, Function.update_of_ne other]
    exact sound.unheard k outside

/-- The loop over the contexts, over as many as are left. -/
theorem traverseFrom_sound (cb : List MemdebugStat → MemdebugStat → Int) (heard : HeardOf) (count i : Nat)
    (told : List MemdebugStat) (s : MemdebugStore) (sound : Sound ⟨s, told.foldl hear heard⟩)
    (ends : i + count = s.vars.ctxes.length) :
    ∃ all next, traverseFrom cb count i told s = .ok (all, next) ∧ Sound ⟨next, all.foldl hear heard⟩ := by
  induction count generalizing i told s with
  | zero => exact ⟨told, s, rfl, sound⟩
  | succ count ih =>
      have inside : i < s.vars.ctxes.length := by omega
      rcases tell_sound sound inside with ⟨st, middle, ran, length, next⟩
      change middle.vars.ctxes.length = s.vars.ctxes.length at length
      have heard' : (told ++ [st]).foldl hear heard = hear (told.foldl hear heard) st := List.foldl_concat _ _ _ _
      rw [traverseFrom, bind_ok ran]
      rw [← heard'] at next
      by_cases stop : cb told st ≠ 0
      · rw [if_pos stop]
        exact ⟨told ++ [st], middle, rfl, next⟩
      · rw [if_neg stop]
        exact ih (i + 1) (told ++ [st]) middle next (by omega)

/-- A new context has had nothing, and nothing has been heard of it. -/
theorem register_sound (sound : Sound c) (room : c.store.vars.ctxes.length < countofCtxes) :
    ∃ answer next, clientStep system .register c = .ok (answer, next) ∧ Sound next := by
  let after : Contexts := { c.store.vars with ctxes := c.store.vars.ctxes ++ [⟨0, 0, 0, 0⟩] }
  have length : after.ctxes.length = c.store.vars.ctxes.length + 1 := List.length_append
  have ran : memdebugRegister c.store = .ok (c.store.vars.ctxes.length, { c.store with vars := after }) := by
    rw [memdebugRegister, vars_bind, decide_eq_true room, check_bind]
    rfl
  refine ⟨.number c.store.vars.ctxes.length, ⟨{ c.store with vars := after }, c.heard⟩, clientStep_ok ?_, ?_, ⟨?_, ?_⟩, ?_⟩
  · rw [serve, bind_ok ran]
    rfl
  · intro k ctx there
    by_cases old : k < c.store.vars.ctxes.length
    · exact sound.flows k ctx ((List.getElem?_append_left old).symm.trans there)
    · have inside := (List.getElem?_eq_some_iff.mp there).1
      change k < after.ctxes.length at inside
      obtain rfl : k = c.store.vars.ctxes.length := by omega
      have last : after.ctxes[c.store.vars.ctxes.length]? = some ⟨0, 0, 0, 0⟩ := List.getElem?_concat_length
      cases last.symm.trans there
      change 0 = ((c.heard _).allocated + 0) - ((c.heard _).freed + 0)
      rw [sound.unheard _ (Nat.le_refl _)]
      rfl
  · have within := sound.bounded.within
    change c.store.vars.runtimeScope < after.ctxes.length
    omega
  · change after.ctxes.length ≤ countofCtxes
    omega
  · intro k outside
    change after.ctxes.length ≤ k at outside
    exact sound.unheard k (by omega)

theorem scope_sound (sound : Sound c) (n : Int) :
    ∃ answer next, clientStep system (.setRuntimeScope n) c = .ok (answer, next) ∧ Sound next := by
  refine ⟨.number c.store.vars.runtimeScope, _, clientStep_ok rfl, sound.flows, ⟨?_, sound.bounded.few⟩, sound.unheard⟩
  change (if n < 0 ∨ (c.store.vars.ctxes.length : Int) ≤ n then -1 else n) < c.store.vars.ctxes.length
  split <;> omega

theorem stat_sound (sound : Sound c) (low : 0 ≤ n) (inside : n < c.store.vars.ctxes.length) :
    ∃ answer next, clientStep system (.stat n) c = .ok (answer, next) ∧ Sound next := by
  rcases tell_sound sound (show n.toNat < c.store.vars.ctxes.length by omega) with ⟨st, next, ran, -, after⟩
  have asked : memdebugStat n c.store = .ok (st, next) := by
    rw [memdebugStat, vars_bind, decide_eq_true inside, check_bind, if_pos low, ran]
  refine ⟨.stats [st], ⟨next, hear c.heard st⟩, clientStep_ok ?_, after⟩
  rw [serve, bind_ok asked]
  rfl

theorem traverse_sound (sound : Sound c) (cb : List MemdebugStat → MemdebugStat → Int) :
    ∃ answer next, clientStep system (.traverseCtxes cb) c = .ok (answer, next) ∧ Sound next := by
  rcases traverseFrom_sound cb c.heard c.store.vars.ctxes.length 0 [] c.store sound (Nat.zero_add _) with
    ⟨all, next, ran, after⟩
  have gone : memdebugTraverseCtxes cb c.store = .ok (all, next) := by
    rw [memdebugTraverseCtxes, vars_bind, ran]
  refine ⟨.stats all, ⟨next, all.foldl hear c.heard⟩, clientStep_ok ?_, after⟩
  rw [serve, bind_ok gone]
  rfl

/-- A call leaves the sums right exactly if it is even. -/
theorem call_settles (sound : Sound c) (call : Call) (allowed : Allowed call c.store) :
    Settles system call c (Even system call c.store) := by
  cases call with
  | op op => exact op_settles sound op allowed
  | register => exact settles_always (register_sound sound allowed)
  | setRuntimeScope n => exact settles_always (scope_sound sound n)
  | getRuntimeScope => exact settles_always ⟨.number c.store.vars.runtimeScope, c, rfl, sound⟩
  | stat n => exact settles_always (stat_sound sound allowed.1 allowed.2)
  | traverseCtxes cb => exact settles_always (traverse_sound sound cb)

/-- No context is registered yet, and nothing has been heard. -/
structure Unopened (c : Client) : Prop where
  none : c.store.vars.ctxes = []
  scope : c.store.vars.runtimeScope < 0
  unheard : ∀ k, c.heard k = ⟨0, 0⟩

theorem Unopened.sound (unopened : Unopened c) : Sound c := by
  refine ⟨fun k ctx there => ?_, ⟨?_, ?_⟩, fun k _ => unopened.unheard k⟩
  · rw [unopened.none] at there
    cases there
  · rw [unopened.none]
    exact unopened.scope
  · rw [unopened.none]
    exact Nat.zero_le _

instance (call : Call) (s : MemdebugStore) : Decidable (Allowed call s) :=
  match call with
  | .op op => inferInstanceAs (Decidable (0 ≤ numberOf op ∧ numberOf op < countofCtxes ∧
      ∀ a ∈ argument op, (s.heap.lookup a).isSome = true))
  | .register => inferInstanceAs (Decidable (s.vars.ctxes.length < countofCtxes))
  | .stat n => inferInstanceAs (Decidable (0 ≤ n ∧ n < s.vars.ctxes.length))
  | .setRuntimeScope _ => isTrue trivial
  | .getRuntimeScope => isTrue trivial
  | .traverseCtxes _ => isTrue trivial

instance (system : System) (call : Call) (s : MemdebugStore) : Decidable (Even system call s) :=
  match call with
  | .op (.realloc n ptr sz) => inferInstanceAs (Decidable (∀ k < s.vars.ctxes.length,
      bookings n s.vars k * misfit system ptr sz s = 0))
  | .op (.reallocf _ (some _) sz) => inferInstanceAs (Decidable (¬ (sz = 0 ∧ system.releases s.tick = true)))
  | .op (.reallocf _ none _) => isTrue trivial
  | .op (.malloc ..) => isTrue trivial
  | .op (.calloc ..) => isTrue trivial
  | .op (.free ..) => isTrue trivial
  | .op (.strdup ..) => isTrue trivial
  | .op (.strndup ..) => isTrue trivial
  | .register => isTrue trivial
  | .setRuntimeScope _ => isTrue trivial
  | .getRuntimeScope => isTrue trivial
  | .stat _ => isTrue trivial
  | .traverseCtxes _ => isTrue trivial

def firstClient : Client := ⟨⟨∅, ⟨[], -1⟩, 0⟩, fun _ => ⟨0, 0⟩⟩

theorem firstClient_unopened : Unopened firstClient := ⟨rfl, by decide, fun _ => rfl⟩

/-- Blocks come and go under two contexts, one of which is the runtime scope for a while. -/
def sampleTalk : List Call :=
  [.register, .op (.malloc 0 16), .register, .stat 0, .op (.realloc 0 (some 1) 48), .setRuntimeScope 1,
    .op (.strdup 0 [113, 119, 101]), .traverseCtxes fun told _ => told.length, .op (.free 1 (some 2)),
    .setRuntimeScope (-1), .op (.reallocf 1 (some 3) 40), .traverseCtxes fun _ _ => 0, .getRuntimeScope]

end MnCommon.Memdebug
