import MnCommon.Memdebug.Model
import MnCommon.Memory.Run
import MnCommon.Memory.Records

/-! The accounts of the contexts against the blocks that are live, over whole runs. -/

namespace MnCommon.Memdebug

open Memory

/-- The usable bytes of the live blocks of a context. -/
def allocated (n : Int) (h : Heap Block) : Nat :=
  total (fun block => if block.owner = n then block.usable.toNat else 0) h

/-- The number of them. -/
def items (n : Int) (h : Heap Block) : Nat := total (fun block => if block.owner = n then 1 else 0) h

/-- The accounts are right, as numbers of the type `size_t`. -/
def Balanced (h : Heap Block) (v : Contexts) : Prop :=
  ∀ (k : Nat) ctx, v.ctxes[k]? = some ctx →
    ctx.nallocated = UInt64.ofNat (allocated k h) ∧ ctx.nitems = UInt64.ofNat (items k h)

variable {system : System} {h : Heap Block} {v : Contexts} {s next : MemdebugStore} {n k : Int} {a : Addr}
  {block : Block} {u : UInt64} {more : UInt64 → UInt64} {entry : Entry} {ptr : Ptr} {sz : UInt64}

/-- What is live fits into memory, so that the accounts are exact. -/
theorem Balanced.exact (balanced : Balanced h v) {k : Nat} {ctx : MemdebugCtx} (there : v.ctxes[k]? = some ctx)
    (fits : allocated k h < 2 ^ 64) (few : items k h < 2 ^ 64) :
    ctx.nallocated.toNat = allocated k h ∧ ctx.nitems.toNat = items k h := by
  rcases balanced k ctx there with ⟨bytes, count⟩
  rw [bytes, count, UInt64.toNat_ofNat_of_lt' fits, UInt64.toNat_ofNat_of_lt' few]
  exact ⟨rfl, rfl⟩

theorem ofNat_usable (u : UInt64) (m : Nat) : UInt64.ofNat (u.toNat + m) = UInt64.ofNat m + u := by
  rw [UInt64.ofNat_add, UInt64.ofNat_toNat, UInt64.add_comm]

theorem allocated_insert (new : h.lookup a = none) (n k : Int) (u : UInt64) :
    allocated k (h.insert a ⟨u, n⟩) = (if n = k then u.toNat else 0) + allocated k h := total_insert new _ _

theorem items_insert (new : h.lookup a = none) (n k : Int) (u : UInt64) :
    items k (h.insert a ⟨u, n⟩) = (if n = k then 1 else 0) + items k h := total_insert new _ _

theorem allocated_erase (cell : h.lookup a = some block) (k : Int) :
    allocated k h = (if block.owner = k then block.usable.toNat else 0) + allocated k (h.erase a) := total_erase cell _

theorem items_erase (cell : h.lookup a = some block) (k : Int) :
    items k h = (if block.owner = k then 1 else 0) + items k (h.erase a) := total_erase cell _

/-- The contexts after an entry: that of the block has it, the others are left alone. -/
theorem bookOn_spec (entry : Entry) (u : UInt64) (low : 0 ≤ n) {k : Nat} {ctx : MemdebugCtx}
    (there : (bookOn entry u n v).ctxes[k]? = some ctx) :
    ∃ before, v.ctxes[k]? = some before ∧ ctx = if n = k then entry u before else before := by
  rw [bookOn] at there
  by_cases registered : n < v.ctxes.length
  · rw [if_pos registered] at there
    change (v.ctxes.modify n.toNat (entry u))[k]? = some ctx at there
    rw [List.getElem?_modify, Option.map_eq_map, Option.map_eq_some_iff] at there
    rcases there with ⟨before, known, same⟩
    refine ⟨before, known, ?_⟩
    have number : n.toNat = k ↔ n = k := by omega
    simp only [number] at same
    exact same.symm
  · rw [if_neg registered] at there
    refine ⟨ctx, there, (if_neg ?_).symm⟩
    have inside := (List.getElem?_eq_some_iff.mp there).1
    omega

/-- A block is booked that has been allocated. -/
theorem Balanced.increase (balanced : Balanced h v) (new : h.lookup a = none) (low : 0 ≤ n) (u : UInt64)
    (more : UInt64 → UInt64) : Balanced (h.insert a ⟨u, n⟩) (bookOn (inc more) u n v) := by
  intro k ctx there
  rcases bookOn_spec (inc more) u low there with ⟨before, known, rfl⟩
  rcases balanced k before known with ⟨bytes, count⟩
  rw [allocated_insert new, items_insert new]
  by_cases here : n = k
  · rw [if_pos here, if_pos here, if_pos here, ofNat_usable]
    constructor
    · exact congrArg (· + u) bytes
    · change before.nitems + 1 = _
      rw [count, UInt64.ofNat_add, UInt64.add_comm]
      rfl
  · rw [if_neg here, if_neg here, if_neg here, Nat.zero_add, Nat.zero_add]
    exact ⟨bytes, count⟩

/-- A block is booked that is to be freed. -/
theorem Balanced.decrease (balanced : Balanced h v) (cell : h.lookup a = some ⟨u, n⟩) (low : 0 ≤ n)
    (more : UInt64 → UInt64) : Balanced (h.erase a) (bookOn (dec more) u n v) := by
  intro k ctx there
  rcases bookOn_spec (dec more) u low there with ⟨before, known, rfl⟩
  rcases balanced k before known with ⟨bytes, count⟩
  rw [allocated_erase cell] at bytes
  rw [items_erase cell] at count
  by_cases here : n = k
  · rw [if_pos here, ofNat_usable] at bytes
    rw [if_pos here, UInt64.ofNat_add, UInt64.add_comm] at count
    rw [if_pos here]
    constructor
    · change before.nallocated - u = _
      rw [bytes, UInt64.add_sub_cancel]
    · change before.nitems - 1 = _
      rw [count]
      exact UInt64.add_sub_cancel _ _
  · rw [if_neg here, Nat.zero_add] at bytes count
    rw [if_neg here]
    exact ⟨bytes, count⟩

/-- The number of the context that a call is made for. -/
def numberOf : MemdebugOp → Int
  | .malloc n _ => n
  | .calloc n _ _ => n
  | .realloc n _ _ => n
  | .reallocf n _ _ => n
  | .free n _ => n
  | .strdup n _ => n
  | .strndup n _ _ => n

def argument : MemdebugOp → Ptr
  | .realloc _ ptr _ => ptr
  | .reallocf _ ptr _ => ptr
  | .free _ ptr => ptr
  | _ => none

/-- The number is one that a context can have, and the argument NULL or a live block that was
allocated under it. -/
def Permitted (op : MemdebugOp) (s : MemdebugStore) : Prop :=
  0 ≤ numberOf op ∧ numberOf op < countofCtxes ∧
    ∀ a ∈ argument op, ∃ block ∈ s.heap.lookup a, block.owner = numberOf op

/-- The system keeps the block that is to be resized although the wrapper has booked its
release, or the block is released twice. -/
def Spoils (system : System) (op : MemdebugOp) (s : MemdebugStore) : Prop :=
  match op with
  | .realloc n (some _) sz =>
      n < s.vars.ctxes.length ∧ system.grants s.tick = false ∧ ¬ (sz = 0 ∧ system.releases s.tick = true)
  | .reallocf _ (some _) sz => sz = 0 ∧ system.releases s.tick = true
  | _ => False

/-- The call returns and the accounts are right. -/
def Accounts (system : System) (op : MemdebugOp) (s : MemdebugStore) : Prop :=
  ∃ res next, step system op s = .ok (res, next) ∧ Balanced next.heap next.vars

/-- No runtime scope is set and the accounts are right. -/
structure Settled (s : MemdebugStore) : Prop where
  balanced : Balanced s.heap s.vars
  scope : s.vars.runtimeScope < 0

theorem vars_bind {A : Type} (f : Contexts → MemdebugProg A) (s : MemdebugStore) : (vars >>= f) s = f s.vars s := rfl

theorem usable_some (cell : s.heap.lookup a = some block) : mallocUsableSize (some a) s = .ok (block.usable, s) := by
  rw [mallocUsableSize, bind_ok (load_ok cell)]
  rfl

theorem body_some (entry : Entry) (low : 0 ≤ n) (high : n < countofCtxes) (cell : s.heap.lookup a = some block)
    (scope : s.vars.runtimeScope < 0) :
    memdebugBody n entry (some a) s = .ok ((), { s with vars := bookOn entry block.usable n s.vars }) := by
  have unset : ¬ 0 ≤ (bookOn entry block.usable n s.vars).runtimeScope := by
    rw [bookOn]
    split <;> exact not_le.mpr scope
  let charged : MemdebugStore := { s with vars := bookOn entry block.usable n s.vars }
  have booking : setVars (bookOn entry block.usable n) s = .ok ((), charged) := rfl
  rw [memdebugBody, if_neg nofun, decide_eq_true ⟨low, high⟩, check_bind, bind_ok (usable_some cell), bind_ok booking,
    vars_bind, if_neg unset]
  rfl

theorem Settled.booked (settled : Settled s) (entry : Entry) (u : UInt64) (n : Int) (h : Heap Block) (tick : Nat)
    (balanced : Balanced h (bookOn entry u n s.vars)) : Settled ⟨h, bookOn entry u n s.vars, tick⟩ := by
  refine ⟨balanced, ?_⟩
  change (bookOn entry u n s.vars).runtimeScope < 0
  rw [bookOn]
  split <;> exact settled.scope

/-- The accounts will be right once the block, if there is one, is booked. -/
def Pending (n : Int) (res : Ptr) (s : MemdebugStore) : Prop :=
  match res with
  | none => Settled s
  | some a => ∃ h u, s.heap = h.insert a ⟨u, n⟩ ∧ h.lookup a = none ∧ Settled ⟨h, s.vars, s.tick⟩

/-- The accounts will be right once the block, which is live, is freed. -/
def Due (a : Addr) (s : MemdebugStore) : Prop :=
  (∃ block, s.heap.lookup a = some block) ∧ Settled ⟨s.heap.erase a, s.vars, s.tick⟩

theorem Pending.book (pending : Pending n ptr s) (low : 0 ≤ n) (high : n < countofCtxes) (more : UInt64 → UInt64) :
    ∃ next, memdebugBody n (inc more) ptr s = .ok ((), next) ∧ Settled next := by
  cases ptr with
  | none => exact ⟨s, rfl, pending⟩
  | some a =>
      rcases pending with ⟨h, u, heap, new, settled⟩
      have cell : s.heap.lookup a = some ⟨u, n⟩ := by rw [heap, Finmap.lookup_insert]
      refine ⟨_, body_some (inc more) low high cell settled.scope, ?_⟩
      apply settled.booked (inc more) u n
      rw [heap]
      exact settled.balanced.increase new low u more

theorem Settled.due (settled : Settled s) (low : 0 ≤ n) (high : n < countofCtxes) (more : UInt64 → UInt64)
    (cell : s.heap.lookup a = some block) (owner : block.owner = n) :
    ∃ next, memdebugBody n (dec more) (some a) s = .ok ((), next) ∧ Due a next ∧
      next = { s with vars := bookOn (dec more) block.usable n s.vars } := by
  refine ⟨_, body_some (dec more) low high cell settled.scope, ⟨⟨block, cell⟩, ?_⟩, rfl⟩
  apply settled.booked (dec more) block.usable n
  subst owner
  exact settled.balanced.decrease cell low more

theorem malloc_pending (system : System) (n : Int) (settled : Settled s) (sz : Nat) :
    ∃ res next, malloc system n sz s = .ok (res, next) ∧ Pending n res next := by
  rw [malloc]
  by_cases yes : system.grants s.tick = true
  · rw [if_pos yes]
    have new := system.pick_fresh s.tick s.heap.keys
    rw [Finmap.mem_keys, ← Finmap.lookup_eq_none] at new
    exact ⟨_, _, rfl, s.heap, _, rfl, new, settled.balanced, settled.scope⟩
  · rw [if_neg yes]
    exact ⟨none, _, rfl, settled.balanced, settled.scope⟩

theorem calloc_pending (system : System) (n : Int) (settled : Settled s) (e sz : Nat) :
    ∃ res next, calloc system n e sz s = .ok (res, next) ∧ Pending n res next := by
  rw [calloc]
  by_cases fits : e * sz < 2 ^ 64
  · rw [if_pos fits]
    exact malloc_pending system n settled (e * sz)
  · rw [if_neg fits]
    exact ⟨none, _, rfl, settled.balanced, settled.scope⟩

theorem booked_settled {request : MemdebugProg Ptr} (low : 0 ≤ n) (high : n < countofCtxes)
    (pending : ∃ res next, request s = .ok (res, next) ∧ Pending n res next) :
    ∃ res next, booked n request s = .ok (res, next) ∧ Settled next := by
  rcases pending with ⟨res, middle, ran, pending⟩
  rcases pending.book low high id with ⟨next, ran', settled⟩
  refine ⟨res, next, ?_, settled⟩
  rw [booked, bind_ok ran, memdebugBodyInc, bind_ok ran']
  rfl

theorem realloc_released (system : System) (n : Int) (cell : s.heap.lookup a = some block) {sz : Nat}
    (released : sz = 0 ∧ system.releases s.tick = true) :
    realloc system n (some a) sz s = .ok (none, { s with heap := s.heap.erase a, tick := s.tick + 1 }) := by
  rw [realloc, bind_ok (load_ok cell)]
  exact if_pos released

theorem realloc_refused (system : System) (n : Int) (cell : s.heap.lookup a = some block) {sz : Nat}
    (kept : ¬ (sz = 0 ∧ system.releases s.tick = true)) (no : system.grants s.tick = false) :
    realloc system n (some a) sz s = .ok (none, { s with tick := s.tick + 1 }) := by
  rw [realloc, bind_ok (load_ok cell)]
  exact (if_neg kept).trans (if_neg (no ▸ Bool.false_ne_true))

theorem realloc_granted (system : System) (n : Int) (due : Due a s) {sz : Nat}
    (kept : ¬ (sz = 0 ∧ system.releases s.tick = true)) (yes : system.grants s.tick = true) :
    ∃ b next, realloc system n (some a) sz s = .ok (some b, next) ∧ Pending n (some b) next := by
  rcases due with ⟨⟨block, cell⟩, settled⟩
  let b := if system.stays s.tick then a else system.pick s.tick s.heap.keys
  have new : (s.heap.erase a).lookup b = none := by
    by_cases here : b = a
    · rw [here, Finmap.lookup_erase]
    · rw [Finmap.lookup_erase_ne here]
      have fresh := system.pick_fresh s.tick s.heap.keys
      rw [Finmap.mem_keys, ← Finmap.lookup_eq_none] at fresh
      by_cases stays : system.stays s.tick = true
      · exact absurd (if_pos stays) here
      · rw [show b = _ from if_neg stays]
        exact fresh
  refine ⟨b, { s with heap := (s.heap.erase a).insert b ⟨system.usable s.tick sz, n⟩, tick := s.tick + 1 }, ?_,
    s.heap.erase a, system.usable s.tick sz, rfl, new, settled.balanced, settled.scope⟩
  rw [realloc, bind_ok (load_ok cell)]
  exact (if_neg kept).trans (if_pos yes)

theorem pred_ne (x : UInt64) : x - 1 ≠ x := by
  intro same
  grind

/-- A block that cannot be resized although its release is booked. -/
theorem not_balanced (balanced : Balanced h v) (low : 0 ≤ n) (registered : n < v.ctxes.length)
    (more : UInt64 → UInt64) (u : UInt64) : ¬ Balanced h (bookOn (dec more) u n v) := by
  intro still
  have inside : n.toNat < v.ctxes.length := by omega
  have known : v.ctxes[n.toNat]? = some v.ctxes[n.toNat] := List.getElem?_eq_getElem inside
  have there : (bookOn (dec more) u n v).ctxes[n.toNat]? = some (dec more u v.ctxes[n.toNat]) := by
    rw [bookOn, if_pos registered]
    change (v.ctxes.modify n.toNat (dec more u))[n.toNat]? = _
    rw [List.getElem?_modify, known]
    exact congrArg some (if_pos rfl)
  have before := (balanced n.toNat _ known).2
  have after := (still n.toNat _ there).2
  rw [← before] at after
  change v.ctxes[n.toNat].nitems - 1 = _ at after
  exact pred_ne _ after

theorem realloc_settled (system : System) (settled : Settled s) (low : 0 ≤ n) (high : n < countofCtxes)
    (cell : s.heap.lookup a = some block) (owner : block.owner = n) (sz : UInt64) :
    ∃ res next, memdebugRealloc system n (some a) sz s = .ok (res, next) ∧
      (¬ Spoils system (.realloc n (some a) sz) s → Settled next) ∧
      (Spoils system (.realloc n (some a) sz) s → ¬ Balanced next.heap next.vars) := by
  rcases settled.due low high (fun _ => 0) cell owner with ⟨charged, ran, due, same⟩
  have cell' : charged.heap.lookup a = some block := by rw [same]; exact cell
  have tick : charged.tick = s.tick := by rw [same]
  have size : sz.toNat = 0 ↔ sz = 0 := by rw [← UInt64.toNat_inj]; rfl
  rw [memdebugRealloc, bind_ok (usable_some cell), bind_ok ran]
  by_cases released : sz.toNat = 0 ∧ system.releases charged.tick = true
  · rw [bind_ok (realloc_released system n cell' released)]
    refine ⟨none, _, rfl, fun _ => ⟨due.2.balanced, due.2.scope⟩, fun spoils => ?_⟩
    rw [tick, size] at released
    exact absurd released spoils.2.2
  by_cases yes : system.grants charged.tick = true
  · rcases realloc_granted system n due released yes with ⟨b, middle, ran', pending⟩
    rcases pending.book low high (fun _ => if sz < block.usable then 0 else sz - block.usable) with ⟨next, ran'', after⟩
    rw [bind_ok ran', bind_ok ran'']
    refine ⟨some b, next, rfl, fun _ => after, fun spoils => ?_⟩
    rw [tick] at yes
    exact absurd (yes.symm.trans spoils.2.1) nofun
  · have no : system.grants charged.tick = false := Bool.eq_false_iff.mpr yes
    rw [bind_ok (realloc_refused system n cell' released no)]
    refine ⟨none, _, rfl, fun safe => ?_, fun spoils => ?_⟩
    · have unregistered : ¬ n < s.vars.ctxes.length := by
        intro registered
        rw [tick] at no released
        rw [size] at released
        exact safe ⟨registered, no, released⟩
      have vars : charged.vars = s.vars := by
        rw [same]
        exact if_neg unregistered
      have heap : charged.heap = s.heap := by rw [same]
      refine ⟨?_, ?_⟩
      · change Balanced charged.heap charged.vars
        rw [vars, heap]
        exact settled.balanced
      · change charged.vars.runtimeScope < 0
        rw [vars]
        exact settled.scope
    · rw [same]
      exact not_balanced settled.balanced low spoils.1 _ _

theorem reallocf_settled (system : System) (settled : Settled s) (low : 0 ≤ n) (high : n < countofCtxes)
    (cell : s.heap.lookup a = some block) (owner : block.owner = n) (sz : UInt64) :
    (¬ Spoils system (.reallocf n (some a) sz) s →
      ∃ res next, memdebugReallocf system n (some a) sz s = .ok (res, next) ∧ Settled next) ∧
    (Spoils system (.reallocf n (some a) sz) s → memdebugReallocf system n (some a) sz s = .error .dangling) := by
  rcases settled.due low high id cell owner with ⟨charged, ran, due, same⟩
  have cell' : charged.heap.lookup a = some block := by rw [same]; exact cell
  have tick : charged.tick = s.tick := by rw [same]
  rw [memdebugReallocf, memdebugBodyDec, bind_ok ran]
  constructor
  · intro safe
    have kept : ¬ (sz.toNat = 0 ∧ system.releases charged.tick = true) := by
      rw [tick]
      exact fun both => safe ⟨UInt64.toNat_inj.mp both.1, both.2⟩
    apply booked_settled low high
    by_cases yes : system.grants charged.tick = true
    · rcases realloc_granted system n due kept yes with ⟨b, next, ran', pending⟩
      refine ⟨some b, next, ?_, pending⟩
      rw [reallocf, bind_ok ran', if_neg nofun]
      rfl
    · refine ⟨none, { charged with heap := charged.heap.erase a, tick := charged.tick + 1 }, ?_, due.2.balanced,
        due.2.scope⟩
      have no : system.grants charged.tick = false := Bool.eq_false_iff.mpr yes
      have freed : free (some a) (⟨charged.heap, charged.vars, charged.tick + 1⟩ : MemdebugStore) =
          .ok ((), ⟨charged.heap.erase a, charged.vars, charged.tick + 1⟩) := free_ok cell'
      rw [reallocf, bind_ok (realloc_refused system n cell' kept no), if_pos rfl, bind_ok freed]
      rfl
  · intro spoils
    have released : sz.toNat = 0 ∧ system.releases charged.tick = true := by
      rw [tick]
      exact ⟨congrArg UInt64.toNat spoils.1, spoils.2⟩
    have gone : free (some a) (⟨charged.heap.erase a, charged.vars, charged.tick + 1⟩ : MemdebugStore) =
        .error .dangling := by
      simp only [free, Finmap.lookup_erase]
    rw [booked, run_bind, reallocf, bind_ok (realloc_released system n cell' released), if_pos rfl, run_bind, gone]

theorem free_settled (settled : Settled s) (low : 0 ≤ n) (high : n < countofCtxes)
    (cell : s.heap.lookup a = some block) (owner : block.owner = n) :
    ∃ next, memdebugFree n (some a) s = .ok ((), next) ∧ Settled next := by
  rcases settled.due low high id cell owner with ⟨charged, ran, due, same⟩
  have cell' : charged.heap.lookup a = some block := by rw [same]; exact cell
  refine ⟨_, ?_, due.2⟩
  rw [memdebugFree, memdebugBodyDec, bind_ok ran, free_ok cell']

theorem realloc_null_settled (settled : Settled s) (low : 0 ≤ n) (high : n < countofCtxes) (sz : UInt64) :
    ∃ res next, memdebugRealloc system n none sz s = .ok (res, next) ∧ Settled next := by
  rcases malloc_pending system n settled sz.toNat with ⟨res, middle, ran, pending⟩
  rcases pending.book low high (fun _ => if sz < 0 then 0 else sz - 0) with ⟨next, ran', after⟩
  refine ⟨res, next, ?_, after⟩
  have usable : mallocUsableSize none s = .ok (0, s) := rfl
  have nothing : memdebugBody n (dec fun _ => 0) none s = .ok ((), s) := rfl
  rw [memdebugRealloc, bind_ok usable, bind_ok nothing, realloc, bind_ok ran, bind_ok ran']
  rfl

theorem reallocf_null_settled (settled : Settled s) (low : 0 ≤ n) (high : n < countofCtxes) (sz : UInt64) :
    ∃ res next, memdebugReallocf system n none sz s = .ok (res, next) ∧ Settled next := by
  have nothing : memdebugBody n (dec id) none s = .ok ((), s) := rfl
  rw [memdebugReallocf, memdebugBodyDec, bind_ok nothing]
  apply booked_settled low high
  rcases malloc_pending system n settled sz.toNat with ⟨res, next, ran, pending⟩
  refine ⟨res, next, ?_, pending⟩
  rw [reallocf, realloc, bind_ok ran]
  cases res with
  | none => rfl
  | some a => rfl

/-- A call leaves the accounts right exactly if it does not spoil them. -/
theorem step_settled (system : System) (settled : Settled s) (op : MemdebugOp) (permitted : Permitted op s) :
    (¬ Spoils system op s → ∃ res next, step system op s = .ok (res, next) ∧ Settled next) ∧
      (Spoils system op s → ¬ Accounts system op s) := by
  rcases permitted with ⟨low, high, live⟩
  cases op with
  | malloc n sz =>
      exact ⟨fun _ => booked_settled low high (malloc_pending system n settled sz.toNat), False.elim⟩
  | calloc n e sz =>
      exact ⟨fun _ => booked_settled low high (calloc_pending system n settled e.toNat sz.toNat), False.elim⟩
  | strdup n str =>
      exact ⟨fun _ => booked_settled low high (malloc_pending system n settled (str.length + 1)), False.elim⟩
  | strndup n str len =>
      exact ⟨fun _ => booked_settled low high (malloc_pending system n settled (min str.length len.toNat + 1)),
        False.elim⟩
  | realloc n ptr sz =>
      cases ptr with
      | none => exact ⟨fun _ => realloc_null_settled settled low high sz, False.elim⟩
      | some a =>
          rcases live a rfl with ⟨block, cell, owner⟩
          rcases realloc_settled system settled low high cell owner sz with ⟨res, next, ran, safe, spoils⟩
          refine ⟨fun fine => ⟨res, next, ran, safe fine⟩, fun broken ⟨res', next', ran', balanced⟩ => ?_⟩
          cases ran.symm.trans ran'
          exact spoils broken balanced
  | reallocf n ptr sz =>
      cases ptr with
      | none => exact ⟨fun _ => reallocf_null_settled settled low high sz, False.elim⟩
      | some a =>
          rcases live a rfl with ⟨block, cell, owner⟩
          rcases reallocf_settled system settled low high cell owner sz with ⟨safe, spoils⟩
          refine ⟨safe, fun broken ⟨res', next', ran', balanced⟩ => ?_⟩
          exact absurd ((spoils broken).symm.trans ran') nofun
  | free n ptr =>
      cases ptr with
      | none => exact ⟨fun _ => ⟨none, s, rfl, settled⟩, False.elim⟩
      | some a =>
          rcases live a rfl with ⟨block, cell, owner⟩
          rcases free_settled settled low high cell owner with ⟨next, ran, after⟩
          exact ⟨fun _ => ⟨none, next, bind_ok ran _, after⟩, False.elim⟩

/-- No block has been allocated yet, whatever contexts are registered. -/
structure Opened (s : MemdebugStore) : Prop where
  heap : s.heap = ∅
  scope : s.vars.runtimeScope < 0
  zero : ∀ ctx ∈ s.vars.ctxes, ctx.nallocated = 0 ∧ ctx.nitems = 0

theorem Opened.register (opened : Opened s) (room : s.vars.ctxes.length < countofCtxes) :
    ∃ id next, memdebugRegister s = .ok (id, next) ∧ Opened next := by
  refine ⟨s.vars.ctxes.length, { s with vars := { s.vars with ctxes := s.vars.ctxes ++ [⟨0, 0, 0, 0⟩] } }, ?_,
    opened.heap, opened.scope, fun ctx inside => ?_⟩
  · rw [memdebugRegister, vars_bind, decide_eq_true room, check_bind]
    rfl
  · rcases List.mem_append.mp inside with old | new
    · exact opened.zero ctx old
    · rw [List.mem_singleton.mp new]
      exact ⟨rfl, rfl⟩

theorem Opened.settled (opened : Opened s) : Settled s := by
  refine ⟨fun k ctx there => ?_, opened.scope⟩
  rw [opened.heap, allocated, items, total_empty, total_empty]
  exact opened.zero ctx (List.mem_of_getElem? there)

/-- The accounts are right after every call of a run exactly if no call of it spoils them. -/
theorem accounts_iff (system : System) {ops : List MemdebugOp} (opened : Opened s)
    (within : Along (step system) Permitted ops s) :
    Along (step system) (Accounts system) ops s ↔ Along (step system) (fun op s => ¬ Spoils system op s) ops s := by
  apply along_iff_within _ _ opened.settled within
  · intro op s permitted settled
    rcases step_settled system settled op permitted with ⟨safe, spoils⟩
    constructor
    · exact fun right broken => spoils broken right
    · intro fine
      rcases safe fine with ⟨res, next, ran, after⟩
      exact ⟨res, next, ran, after.balanced⟩
  · intro op s answer next permitted settled right stepped
    rcases step_settled system settled op permitted with ⟨safe, spoils⟩
    rcases safe fun broken => spoils broken right with ⟨res, next', ran, after⟩
    cases stepped.symm.trans ran
    exact after

instance (op : MemdebugOp) (s : MemdebugStore) : Decidable (Permitted op s) :=
  inferInstanceAs (Decidable (0 ≤ numberOf op ∧ numberOf op < countofCtxes ∧
    ∀ a ∈ argument op, ∃ block ∈ s.heap.lookup a, block.owner = numberOf op))

instance (system : System) (op : MemdebugOp) (s : MemdebugStore) : Decidable (Spoils system op s) :=
  match op with
  | .realloc n (some _) sz => inferInstanceAs (Decidable (n < s.vars.ctxes.length ∧ system.grants s.tick = false ∧
      ¬ (sz = 0 ∧ system.releases s.tick = true)))
  | .reallocf _ (some _) sz => inferInstanceAs (Decidable (sz = 0 ∧ system.releases s.tick = true))
  | .realloc _ none _ => isFalse id
  | .reallocf _ none _ => isFalse id
  | .malloc .. => isFalse id
  | .calloc .. => isFalse id
  | .free .. => isFalse id
  | .strdup .. => isFalse id
  | .strndup .. => isFalse id

/-- A system that hands out multiples of 16 bytes and refuses the requests given. -/
def sampleSystem (refused : List Nat) : System where
  pick _ live := live.sup id + 1
  pick_fresh := bump_fresh
  grants tick := decide (tick ∉ refused)
  usable _ sz := UInt64.ofNat ((sz + 15) / 16 * 16)
  stays _ := false
  releases _ := true

/-- Two contexts are registered. -/
def twoContexts : MemdebugStore := ⟨∅, ⟨[⟨0, 0, 0, 0⟩, ⟨0, 0, 0, 0⟩], -1⟩, 0⟩

theorem twoContexts_opened : Opened twoContexts := by
  refine ⟨rfl, by decide, fun ctx inside => ?_⟩
  have zero : ctx = ⟨0, 0, 0, 0⟩ := by simpa [twoContexts] using inside
  rw [zero]
  exact ⟨rfl, rfl⟩

theorem sampleCalls_balanced : Along (step (sampleSystem [3, 4])) (Accounts (sampleSystem [3, 4]))
    [.malloc 0 100, .realloc 0 (some 1) 200, .strdup 1 [113, 119, 101], .calloc 0 4 100, .reallocf 1 (some 3) 64,
      .realloc 0 (some 2) 0] twoContexts :=
  (accounts_iff (sampleSystem [3, 4]) twoContexts_opened (by decide +kernel)).mpr (by decide +kernel)

/-- A block of 112 bytes cannot be resized: it stays, but is no longer on the books. -/
theorem refusedRealloc_not_balanced : ¬ Along (step (sampleSystem [1])) (Accounts (sampleSystem [1]))
    [.malloc 0 100, .realloc 0 (some 1) 200] twoContexts := by
  intro right
  let front : List MemdebugOp := [.malloc 0 100]
  let resize : MemdebugOp := .realloc 0 (some 1) 200
  have trace : ((execute (step (sampleSystem [1])) front twoContexts).map fun first =>
      (step (sampleSystem [1]) resize first.2).map fun last => (last.1, last.2.vars.ctxes[0]?, items 0 last.2.heap)) =
        .ok (.ok (none, some ⟨0, 112, 0, 0⟩, 1)) := by
    decide +kernel
  rcases of_map_ok trace with ⟨first, ran, known⟩
  have whole : Along (step (sampleSystem [1])) (Accounts (sampleSystem [1])) (front ++ [resize]) twoContexts := right
  rcases whole.last ran with ⟨res, next, stepped, balanced⟩
  rw [stepped] at known
  have fields := Except.ok.inj known
  have there : next.vars.ctxes[0]? = some ⟨0, 112, 0, 0⟩ := congrArg (fun x => x.2.1) fields
  have live : items 0 next.heap = 1 := congrArg (fun x => x.2.2) fields
  have count := (balanced 0 _ there).2
  change (0 : UInt64) = UInt64.ofNat (items 0 next.heap) at count
  rw [live] at count
  exact absurd count (by decide)

end MnCommon.Memdebug
