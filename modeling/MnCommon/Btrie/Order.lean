import MnCommon.Btrie.Map

/-! The live keys in their order: the nearest key in either direction, and the
descending enumeration that a client makes of it. -/

namespace MnCommon.Btrie

open Memory Tries Prefix

/-- `other` is `key` or lies beyond it in the direction of the search. -/
def Reaches (direction : Bool) (key other : UInt64) : Prop :=
  if direction then key ≤ other else other ≤ key

/-- The live key that a search in one direction meets first. -/
inductive Closest (live : Finset UInt64) (direction : Bool) (key : UInt64) : Option UInt64 → Prop where
  | absent (empty : ∀ other ∈ live, ¬ Reaches direction key other) : Closest live direction key none
  | present {found : UInt64} (member : found ∈ live) (start : Reaches direction key found)
      (first : ∀ other ∈ live, Reaches direction key other → Reaches direction found other) :
      Closest live direction key (some found)

theorem from_iff (direction : Bool) (key other : UInt64) :
    From direction key.toNat other.toNat ↔ Reaches direction key other := by
  cases direction <;> simp only [From, Nearer, Reaches, Bool.false_eq_true, if_true, if_false,
    UInt64.le_iff_toNat_le] <;> omega

section Search

variable {s : BtrieStore} {T : Trie} {addr : Prefix → Addr} {ledger : Ledger} {live : Finset UInt64}
  {key : UInt64}

theorem Tracks.closest (tracks : Tracks s T addr ledger live) (nonzero : key ≠ 0) (direction : Bool) :
    ∃ found, Closest live direction key found ∧
      btrieFindClosest key direction s = .ok (found.bind ledger, s) := by
  rcases find_closest_ok direction tracks.holds tracks.settled nonzero with ⟨answer, nearest, run⟩
  cases nearest with
  | absent empty =>
      refine ⟨none, .absent fun other member reaches => ?_, run⟩
      exact empty other.toNat ⟨(tracks.stored other).mpr member, (from_iff direction key other).mpr reaches⟩
  | @present found inside first =>
      have small : found < 2 ^ 64 := PrefixTrie.key_lt (T.value_mem found inside.1)
      have size : (UInt64.ofNat found).toNat = found := UInt64.toNat_ofNat_of_lt' small
      generalize UInt64.ofNat found = node at size
      subst size
      have member := (tracks.stored node).mp inside.1
      refine ⟨some node, .present member ((from_iff direction key node).mp inside.2)
        fun other live reaches => ?_, ?_⟩
      · apply (from_iff direction node other).mp
        exact first other.toNat ⟨(tracks.stored other).mpr live, (from_iff direction key other).mpr reaches⟩
      · rw [run, Option.bind_some, tracks.node member]
        rfl

/-- The loop of a client that searches downwards from the key before the one it
found; `keyOf` tells the key of a node. -/
def enumerate (keyOf : Ptr → UInt64) : Nat → UInt64 → BtrieProg (List Ptr)
  | 0, _ => fault .outOfFuel
  | fuel + 1, key => do
      let node ← btrieFindClosest key false
      if node = none then
        return []
      else
        return node :: (← enumerate keyOf fuel (keyOf node - 1))

theorem find_closest_zero (direction : Bool) : btrieFindClosest 0 direction s = .ok (none, s) := rfl

theorem below_pred {found other : UInt64} (nonzero : found ≠ 0) : other ≤ found - 1 ↔ other < found := by
  have positive : 1 ≤ found := by
    rw [UInt64.le_iff_toNat_le]
    exact Nat.one_le_iff_ne_zero.mpr (toNat_ne_zero nonzero)
  rw [UInt64.le_iff_toNat_le, UInt64.toNat_sub_of_le _ _ positive, UInt64.lt_iff_toNat_lt]
  have := toNat_ne_zero nonzero
  change other.toNat ≤ found.toNat - 1 ↔ _
  omega

theorem Tracks.enumerates (tracks : Tracks s T addr ledger live) {keyOf : Ptr → UInt64}
    (named : ∀ k ∈ live, keyOf (ledger k) = k) {fuel : Nat}
    (enough : (live.filter (· ≤ key)).card < fuel) :
    ∃ keys : List UInt64, enumerate keyOf fuel key s = .ok (keys.map ledger, s) ∧
      keys.Pairwise (· > ·) ∧ ∀ k, k ∈ keys ↔ k ∈ live ∧ k ≤ key := by
  induction fuel generalizing key with
  | zero => exact absurd enough (Nat.not_lt_zero _)
  | succ fuel ih =>
      have search : ∃ found, Closest live false key found ∧
          btrieFindClosest key false s = .ok (found.bind ledger, s) := by
        by_cases zero : key = 0
        · subst zero
          refine ⟨none, .absent fun other member reaches => ?_, rfl⟩
          have bottom : other = 0 := UInt64.le_zero_iff.mp reaches
          have live := (tracks.stored other).mpr member
          exact live.ne_zero (bottom ▸ rfl)
        · exact tracks.closest zero false
      rcases search with ⟨found, closest, run⟩
      cases closest with
      | absent empty =>
          refine ⟨[], ?_, List.Pairwise.nil, fun k => ?_⟩
          · rw [enumerate, bind_ok run]
            rfl
          · simp only [List.not_mem_nil, false_iff]
            exact fun both => empty k both.1 both.2
      | @present found member start first =>
          have nonzero : found ≠ 0 := by
            rintro rfl
            exact ((tracks.stored 0).mpr member).ne_zero rfl
          have smaller : live.filter (· ≤ found - 1) ⊂ live.filter (· ≤ key) := by
            refine Finset.ssubset_iff_of_subset (fun k inside => ?_) |>.mpr
              ⟨found, Finset.mem_filter.mpr ⟨member, start⟩, fun inside => ?_⟩
            · rcases Finset.mem_filter.mp inside with ⟨old, low⟩
              have less := (below_pred nonzero).mp low
              exact Finset.mem_filter.mpr ⟨old, UInt64.le_trans (UInt64.le_of_lt less) start⟩
            · exact UInt64.lt_irrefl found ((below_pred nonzero).mp (Finset.mem_filter.mp inside).2)
          have fewer : (live.filter (· ≤ found - 1)).card < fuel := by
            have := Finset.card_lt_card smaller
            omega
          obtain ⟨keys, rest, ordered, members⟩ := ih fewer
          refine ⟨found :: keys, ?_, List.pairwise_cons.mpr ⟨fun k inside => ?_, ordered⟩, fun k => ?_⟩
          · have node : ledger found ≠ none := by
              rw [tracks.node member]
              exact Option.some_ne_none _
            rw [enumerate, bind_ok run, Option.bind_some, if_neg node, named found member, bind_ok rest]
            rfl
          · exact (below_pred nonzero).mp ((members k).mp inside).2
          · rw [List.mem_cons, members, below_pred nonzero]
            constructor
            · rintro (rfl | ⟨inside, less⟩)
              · exact ⟨member, start⟩
              · exact ⟨inside, UInt64.le_trans (UInt64.le_of_lt less) start⟩
            · rintro ⟨inside, low⟩
              have reaches : k ≤ found := first k inside low
              rcases UInt64.lt_or_eq_of_le reaches with less | same
              · exact .inr ⟨inside, less⟩
              · exact .inl same

end Search

/-- After any run the search in either direction finds the nearest live key, and
the descending enumeration lists every live key once. -/
theorem run_closest (system : Allocator MnBtrieNode) (ops : List Op) (admitted : AdmitsAll ∅ ops)
    (vars : MnBtrie) (tick : Nat) :
    ∃ ledger next, run system ops ⟨∅, vars, tick⟩ = .ok (ledger, next) ∧
      (∀ key, key ≠ 0 → ∀ direction, ∃ found, Closest (liveKeys ops) direction key found ∧
        btrieFindClosest key direction next = .ok (found.bind ledger, next)) ∧
      (∀ key ∈ liveKeys ops, ledger key ≠ none) ∧
      ∀ keyOf : Ptr → UInt64, (∀ key ∈ liveKeys ops, keyOf (ledger key) = key) →
        ∀ fuel > (liveKeys ops).card, ∃ keys : List UInt64,
          enumerate keyOf fuel 0xffffffffffffffff next = .ok (keys.map ledger, next) ∧
            keys.Pairwise (· > ·) ∧ ∀ key, key ∈ keys ↔ key ∈ liveKeys ops := by
  obtain ⟨ledger, next, T, addr, ran, tracks, -⟩ := run_tracks system ops admitted vars tick
  refine ⟨ledger, next, ran, fun key nonzero direction => tracks.closest nonzero direction,
    fun key member => ?_, fun keyOf named fuel enough => ?_⟩
  · rw [tracks.node member]
    exact Option.some_ne_none _
  · have most : ∀ key : UInt64, key ≤ 0xffffffffffffffff :=
      fun key => UInt64.le_iff_toNat_le.mpr (Nat.le_of_lt_succ key.toNat_lt)
    have few : ((liveKeys ops).filter (· ≤ 0xffffffffffffffff)).card < fuel :=
      (Finset.card_filter_le _ _).trans_lt enough
    obtain ⟨keys, listed, ordered, members⟩ := tracks.enumerates named few
    exact ⟨keys, listed, ordered, fun key => (members key).trans (and_iff_left (most key))⟩

theorem sampleOps_closest :
    ∃ ledger next, run (.bump blankNode) sampleOps ⟨∅, ⟨0, 0⟩, 0⟩ = .ok (ledger, next) ∧
      (∀ key, key ≠ 0 → ∀ direction, ∃ found, Closest (liveKeys sampleOps) direction key found ∧
        btrieFindClosest key direction next = .ok (found.bind ledger, next)) ∧
      (∀ key ∈ liveKeys sampleOps, ledger key ≠ none) ∧
      ∀ keyOf : Ptr → UInt64, (∀ key ∈ liveKeys sampleOps, keyOf (ledger key) = key) →
        ∀ fuel > (liveKeys sampleOps).card, ∃ keys : List UInt64,
          enumerate keyOf fuel 0xffffffffffffffff next = .ok (keys.map ledger, next) ∧
            keys.Pairwise (· > ·) ∧ ∀ key, key ∈ keys ↔ key ∈ liveKeys sampleOps :=
  run_closest _ sampleOps (by decide) _ _

end MnCommon.Btrie
