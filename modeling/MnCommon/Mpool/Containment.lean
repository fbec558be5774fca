import MnCommon.Mpool.Blocks

/-! Blocks inside the memory of their chunks, also in chunks that are used again. -/

namespace MnCommon.Mpool

open Memory (Fault Along along_iff_of_all)

def request : PoolOp → Option UInt64
  | .malloc sz => some sz
  | .realloc _ sz => some sz
  | _ => none

/-- Neither the rounding nor the header makes the size wrap. -/
def Unwrapped (op : PoolOp) : Prop := ∀ sz, request op = some sz → sz.toNat ≤ 2 ^ 64 - 16

/-- What has been asked for fits into the payload of the block that is answered. -/
def Serves (op : PoolOp) (answer : Option Place) (next : Client) : Prop :=
  ∀ sz, request op = some sz → ∃ b ∈ next.blocks, answer = some b.data ∧ sz.toNat ≤ b.payload

def InBounds (debug : Bool) (op : PoolOp) (c : Client) : Prop :=
  ∃ answer next, step debug op c = .ok (answer, next) ∧ Serves op answer next ∧
    ∀ b ∈ next.blocks, Contained next.pool b

/-- A resize that stays where it is needs no room. -/
def Fits : PoolOp → Client → Prop
  | .malloc sz, c => BigFits sz.toNat c.pool
  | .realloc i sz, c => (∀ b, c.blocks[i]? = some b → b.payload < sz.toNat) → BigFits sz.toNat c.pool
  | _, _ => True

/-- No chunk is smaller than the usual size. -/
structure Roomy (c : Client) : Prop where
  tidy : Tidy c
  large : ∀ s ∈ c.pool.chunks, c.pool.chunksz ≤ s
  contained : ∀ b ∈ c.blocks, Contained c.pool b

variable {c next : Client} {m pool : MpoolCtx} {b : Block} {sz : Nat} {mem : Bytes}

/-- Chunks are not given back. -/
theorem Contained.grown (contained : Contained m b) (grown : ∃ more, pool.chunks = m.chunks ++ more) :
    Contained pool b := by
  rcases contained with ⟨s, here, inside⟩
  rcases grown with ⟨more, chunks⟩
  refine ⟨s, ?_, inside⟩
  rw [chunks, List.getElem?_append_left (List.getElem?_eq_some_iff.mp here).1]
  exact here

/-- The chunks after an allocation, and what decides whether its block fits. -/
theorem Roomy.hand (roomy : Roomy c) (handed : Handed sz c.pool b pool)
    (found : blockAt b.data { pool with mem := mem } = b) :
    (∀ s ∈ pool.chunks, pool.chunksz ≤ s) ∧
      ((∀ d ∈ (c.hand b.data { pool with mem := mem }).blocks, Contained { pool with mem := mem } d) ↔
        BigFits sz c.pool) := by
  rcases handed.grown with ⟨more, chunks, large⟩
  constructor
  · intro s inside
    rw [handed.chunksz]
    rw [chunks] at inside
    rcases List.mem_append.mp inside with old | new
    · exact roomy.large s old
    · exact large s new
  · rw [← handed.inside roomy.large, Client.hand, found]
    constructor
    · intro all
      exact all b (List.mem_append_right _ (List.mem_singleton_self b))
    · intro fits d inside
      rcases List.mem_append.mp inside with old | new
      · exact (roomy.contained d old).grown ⟨more, chunks⟩
      · rw [List.mem_singleton.mp new]
        exact fits

theorem Handed.serves (handed : Handed sz m b pool) (short : sz ≤ 2 ^ 64 - 16) : sz ≤ b.payload :=
  handed.payload ▸ (padded_eq short).2

/-- A block that `malloc` hands out, for a request of its own or for a `realloc`
of NULL. -/
theorem Roomy.malloc (debug : Bool) (roomy : Roomy c) (short : sz ≤ 2 ^ 64 - 16) :
    ∃ b pool, mpoolMalloc debug sz c.pool = .ok (b.data, pool) ∧ Tidy (c.hand b.data pool) ∧
      (∀ s ∈ pool.chunks, pool.chunksz ≤ s) ∧ b ∈ (c.hand b.data pool).blocks ∧ sz ≤ b.payload ∧
      ((∀ d ∈ (c.hand b.data pool).blocks, Contained pool d) ↔ BigFits sz c.pool) := by
  rcases mpoolMalloc_spec debug roomy.tidy.sound (padded_eq short).1 with ⟨b, pool, run, handed⟩
  have found : blockAt b.data pool = b := blockAt_data handed.header
  rcases roomy.hand handed found with ⟨large, fits⟩
  refine ⟨b, pool, run, (roomy.tidy.malloc handed).1, large, ?_, handed.serves short, fits⟩
  rw [Client.hand, found]
  exact List.mem_append_right _ (List.mem_singleton_self b)

/-- What one operation does to the chunks and the blocks in them. -/
def Contains (debug : Bool) (op : PoolOp) (c : Client) : Prop :=
  ∃ answer next, step debug op c = .ok (answer, next) ∧ Serves op answer next ∧
    (∀ s ∈ next.pool.chunks, next.pool.chunksz ≤ s) ∧ Tidy next ∧
    ((∀ b ∈ next.blocks, Contained next.pool b) ↔ Fits op c)

theorem malloc_contains (debug : Bool) (roomy : Roomy c) {sz : UInt64} (unwrapped : Unwrapped (.malloc sz)) :
    Contains debug (.malloc sz) c := by
  rcases roomy.malloc debug (unwrapped sz rfl) with ⟨b, pool, run, after, large, here, enough, fits⟩
  refine ⟨some b.data, c.hand b.data pool, ?_, fun other same => ?_, large, after, fits⟩
  · simp only [step, run, bind, Except.bind, pure, Except.pure]
  · obtain rfl : sz = other := Option.some.inj same
    exact ⟨b, here, rfl, enough⟩

/-- `realloc` of NULL. -/
theorem realloc_null_contains (debug : Bool) (roomy : Roomy c) {i : Nat} {sz : UInt64}
    (unwrapped : Unwrapped (.realloc i sz)) (found : c.blocks[i]? = none) : Contains debug (.realloc i sz) c := by
  rcases roomy.malloc debug (unwrapped sz rfl) with ⟨b, pool, run, after, large, here, enough, fits⟩
  refine ⟨some b.data, c.hand b.data pool, ?_, fun other same => ?_, large, after, ?_⟩
  · simp only [step, found, mpoolRealloc, run, bind, Except.bind, pure, Except.pure]
  · obtain rfl : sz = other := Option.some.inj same
    exact ⟨b, here, rfl, enough⟩
  · simp only [Fits, found, reduceCtorEq, false_imp_iff, implies_true, true_imp_iff]
    exact fits

theorem realloc_stays_contains (debug : Bool) (roomy : Roomy c) {i : Nat} {sz : UInt64} {b : Block}
    (found : c.blocks[i]? = some b) (room : sz.toNat ≤ b.payload) : Contains debug (.realloc i sz) c := by
  have here := List.mem_of_getElem? found
  rcases realloc_stays debug roomy.tidy here room with ⟨pool, run, after, -, -, chunks, chunksz⟩
  refine ⟨some b.data, { c with pool := pool }, ?_, fun other same => ?_, ?_, after, ?_⟩
  · simp only [step, found, run, bind, Except.bind, if_true]
    rfl
  · obtain rfl : sz = other := Option.some.inj same
    exact ⟨b, here, rfl, room⟩
  · simp only [chunks, chunksz]
    exact roomy.large
  · refine iff_of_true (fun d inside => ?_) fun moves => ?_
    · exact (roomy.contained d inside).grown ⟨[], by rw [chunks, List.append_nil]⟩
    · exact absurd (moves b found) (not_lt.mpr room)

theorem realloc_moves_contains (debug : Bool) (roomy : Roomy c) {i : Nat} {sz : UInt64} {b : Block}
    (unwrapped : Unwrapped (.realloc i sz)) (found : c.blocks[i]? = some b) (more : b.payload < sz.toNat) :
    Contains debug (.realloc i sz) c := by
  have short := unwrapped sz rfl
  rcases realloc_moves debug roomy.tidy (List.mem_of_getElem? found) more (padded_eq short).1 with
    ⟨e, mid, mem, run, handed, moved, after, own, -, -⟩
  rcases roomy.hand handed own with ⟨large, fits⟩
  refine ⟨some e.data, c.hand e.data { mid with mem := mem }, ?_, fun other same => ?_, large, after, ?_⟩
  · simp only [step, found, run, bind, Except.bind, if_neg moved]
    rfl
  · obtain rfl : sz = other := Option.some.inj same
    refine ⟨e, ?_, rfl, handed.serves short⟩
    rw [Client.hand, own]
    exact List.mem_append_right _ (List.mem_singleton_self e)
  · simp only [Fits, found, Option.some.injEq, forall_eq', more, true_imp_iff]
    exact fits

theorem store_contains (debug : Bool) (roomy : Roomy c) (i k : Nat) (byte : UInt8) :
    Contains debug (.store i k byte) c := by
  rcases step_tidy debug (.store i k byte) roomy.tidy trivial with ⟨answer, next, run, after, -⟩
  have same : next.pool.chunks = c.pool.chunks ∧ next.pool.chunksz = c.pool.chunksz ∧
      next.blocks = c.blocks := by
    simp only [step] at run
    split at run
    · rcases Prod.mk.inj (Except.ok.inj run) with ⟨-, rfl⟩
      exact ⟨rfl, rfl, rfl⟩
    · split at run
      · rcases Prod.mk.inj (Except.ok.inj run) with ⟨-, rfl⟩
        exact ⟨rfl, rfl, rfl⟩
      · rcases Prod.mk.inj (Except.ok.inj run) with ⟨-, rfl⟩
        exact ⟨rfl, rfl, rfl⟩
  rcases same with ⟨chunks, chunksz, blocks⟩
  refine ⟨answer, next, run, fun _ same => (by cases same), ?_, after, iff_of_true (fun b inside => ?_) trivial⟩
  · rw [chunks, chunksz]
    exact roomy.large
  · rw [blocks] at inside
    exact (roomy.contained b inside).grown ⟨[], by rw [chunks, List.append_nil]⟩

theorem step_contained (debug : Bool) (op : PoolOp) (roomy : Roomy c) (unwrapped : Unwrapped op) :
    Contains debug op c := by
  cases op with
  | malloc sz => exact malloc_contains debug roomy unwrapped
  | realloc i sz =>
      cases found : c.blocks[i]? with
      | none => exact realloc_null_contains debug roomy unwrapped found
      | some b =>
          by_cases room : sz.toNat ≤ b.payload
          · exact realloc_stays_contains debug roomy found room
          · exact realloc_moves_contains debug roomy unwrapped found (not_le.mp room)
  | reset =>
      rcases step_tidy debug .reset roomy.tidy trivial with ⟨answer, next, run, after, -⟩
      rcases Prod.mk.inj (Except.ok.inj run) with ⟨rfl, rfl⟩
      refine ⟨none, ⟨mpoolCtxReset c.pool, []⟩, rfl, fun _ same => (by cases same), roomy.large, after, ?_⟩
      exact iff_of_true (List.forall_mem_nil _) trivial
  | store i k byte => exact store_contains debug roomy i k byte

theorem inBounds_iff_fits (debug : Bool) (op : PoolOp) (c : Client) (unwrapped : Unwrapped op)
    (roomy : Roomy c) : InBounds debug op c ↔ Fits op c := by
  rcases step_contained debug op roomy unwrapped with ⟨answer, next, run, serves, -, -, fits⟩
  constructor
  · rintro ⟨answer', next', run', -, contained⟩
    rcases Prod.mk.inj (Except.ok.inj (run.symm.trans run')) with ⟨-, rfl⟩
    exact fits.mp contained
  · intro holds
    exact ⟨answer, next, run, serves, fits.mpr holds⟩

theorem step_roomy (debug : Bool) (op : PoolOp) (c : Client) (answer : Option Place) (next : Client)
    (unwrapped : Unwrapped op) (roomy : Roomy c) (inBounds : InBounds debug op c)
    (stepped : step debug op c = .ok (answer, next)) : Roomy next := by
  rcases step_contained debug op roomy unwrapped with ⟨answer', next', run, -, large, after, fits⟩
  rcases Prod.mk.inj (Except.ok.inj (stepped.symm.trans run)) with ⟨-, rfl⟩
  have holds := (inBounds_iff_fits debug op c unwrapped roomy).mp inBounds
  exact ⟨after, large, fits.mpr holds⟩

theorem Roomy.init {chunksz : Nat} (small : chunksz < 2 ^ 64) (mem : Bytes) :
    Roomy (Client.init chunksz mem) := by
  refine ⟨.init small mem, fun s inside => ?_, fun b inside => nomatch inside⟩
  rw [List.mem_singleton.mp inside]
  exact le_rfl

/-- All blocks lie inside their chunks along a run as long as no oversized request
is put into a smaller chunk that is there from before a reset, and no longer. -/
theorem run_inBounds_iff {chunksz : Nat} {ops : List PoolOp} (debug : Bool) (mem : Bytes)
    (small : chunksz < 2 ^ 64) (unwrapped : ∀ op ∈ ops, Unwrapped op) :
    Along (step debug) (InBounds debug) ops (Client.init chunksz mem) ↔
      Along (step debug) Fits ops (Client.init chunksz mem) :=
  along_iff_of_all (inBounds_iff_fits debug) (step_roomy debug) (.init small mem) unwrapped

/-- Two chunks are in use before the reset; the second is too small for what is put
into it after it. -/
def reusingOps : List PoolOp := [.malloc 40, .malloc 40, .reset, .malloc 100]

theorem reusingOps_unwrapped : ∀ op ∈ reusingOps, Unwrapped op := by
  simp only [reusingOps, List.forall_mem_cons, Unwrapped, request]
  simp

theorem reusingOps_inBounds_iff : Along (step false) (InBounds false) reusingOps (Client.init 64 fun _ _ => 0) ↔
    Along (step false) Fits reusingOps (Client.init 64 fun _ _ => 0) :=
  run_inBounds_iff false (fun _ _ => 0) (by decide) reusingOps_unwrapped

theorem reusingOps_outside : ¬ Along (step false) (InBounds false) reusingOps (Client.init 64 fun _ _ => 0) := by
  rw [along_iff_of_all (inBounds_iff_fits false) (step_roomy false) (.init (by decide) fun _ _ => 0)
    reusingOps_unwrapped]
  intro run
  have big := (((run.2 _ _ rfl).2 _ _ rfl).2 _ _ rfl).1
  rcases big (by decide) with fresh | ⟨s, here, enough⟩
  · exact absurd fresh (by decide)
  · cases here
    exact absurd enough (by decide)

end MnCommon.Mpool
