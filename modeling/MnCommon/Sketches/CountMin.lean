import Mathlib.Algebra.BigOperators.Group.List.Basic
import Mathlib.Algebra.Order.BigOperators.Group.List

/-! What the items of a weighted stream add up to: the counters of a count-min
sketch, whatever its hash functions are. -/

namespace MnCommon.Sketches

variable {K M : Type} [AddCommMonoid M]

/-- The items whose key is of a kind, added up. -/
def weight (kind : K → Bool) (stream : List (K × M)) : M :=
  ((stream.filter fun item => kind item.1).map Prod.snd).sum

/-- All items, added up. -/
def total (stream : List (K × M)) : M := (stream.map Prod.snd).sum

theorem weight_nil (kind : K → Bool) : weight kind ([] : List (K × M)) = 0 := rfl

theorem weight_append (kind : K → Bool) (first second : List (K × M)) :
    weight kind (first ++ second) = weight kind first + weight kind second := by
  rw [weight, List.filter_append, List.map_append, List.sum_append]
  rfl

theorem weight_singleton (kind : K → Bool) (item : K × M) :
    weight kind [item] = if kind item.1 then item.2 else 0 := by
  cases here : kind item.1 with
  | true => simp [weight, here]
  | false => simp [weight, here]

/-- Only what the items are counts, not their order. -/
theorem weight_perm (kind : K → Bool) {first second : List (K × M)} (same : first.Perm second) :
    weight kind first = weight kind second :=
  ((same.filter _).map _).sum_eq

theorem weight_all (stream : List (K × M)) : weight (fun _ => true) stream = total stream := by
  rw [weight, List.filter_eq_self.mpr fun _ _ => rfl, total]

variable [PartialOrder M] [IsOrderedAddMonoid M]

theorem weight_nonneg (kind : K → Bool) {stream : List (K × M)} (positive : ∀ item ∈ stream, 0 ≤ item.2) :
    0 ≤ weight kind stream := by
  apply List.sum_nonneg
  intro value inside
  rcases List.mem_map.mp inside with ⟨item, kept, rfl⟩
  exact positive item (List.mem_filter.mp kept).1

/-- More kinds of keys weigh at least as much. -/
theorem weight_mono {kind wider : K → Bool} (implies : ∀ key, kind key → wider key) {stream : List (K × M)}
    (positive : ∀ item ∈ stream, 0 ≤ item.2) : weight kind stream ≤ weight wider stream := by
  induction stream with
  | nil => exact le_refl _
  | cons item stream ih =>
      rcases List.forall_mem_cons.mp positive with ⟨here, others⟩
      rw [← List.singleton_append, weight_append, weight_append, weight_singleton, weight_singleton]
      apply add_le_add _ (ih others)
      cases first : kind item.1 with
      | true => rw [implies item.1 first]
      | false =>
          cases second : wider item.1 with
          | true => simpa using here
          | false => exact le_refl _

theorem weight_le_total (kind : K → Bool) {stream : List (K × M)} (positive : ∀ item ∈ stream, 0 ≤ item.2) :
    weight kind stream ≤ total stream := by
  rw [← weight_all]
  exact weight_mono (fun _ _ => rfl) positive

end MnCommon.Sketches
