import MnCommon.Memory.Run
import MnCommon.Sketches.CountMin
import MnCommon.Sketches.Model

/-! The counters of a sketch are sums over the stream, and its estimates lie
between the weight of the key and the total. -/

namespace MnCommon.Sketches

open Bytes

/-- The counter of a key within row `i`. -/
def slot (d : UInt64) (i : Nat) (key : Key) : Nat := (fasthash (UInt64.ofNat i) key % d).toNat

/-- The product of the sizes is one that the counters have indices for. -/
structure Sized (w d : UInt64) : Prop where
  rows : 0 < w.toNat
  columns : 0 < d.toNat
  fits : w.toNat * d.toNat < 2 ^ 64

/-- The counters of row `i` have seen `seen i`. -/
structure Counts (cm : Cm) (w d : UInt64) (seen : Nat → List (Key × Int)) : Prop where
  w_eq : cm.w = w
  d_eq : cm.d = d
  length : cm.v.length = w.toNat * d.toNat
  counter : ∀ i < w.toNat, ∀ j < d.toNat,
    cm.v[d.toNat * i + j]? = some (weight (fun key => slot d i key == j) (seen i))

variable {cm next : Cm} {w d : UInt64} {done i j : Nat} {key : Key} {val : Int} {later stream : List (Key × Int)}
  {seen : Nat → List (Key × Int)}

theorem slot_lt (sized : Sized w d) (i : Nat) (key : Key) : slot d i key < d.toNat := by
  rw [slot, UInt64.toNat_mod]
  exact Nat.mod_lt _ sized.columns

theorem index_lt (low : i < w.toNat) (inner : j < d.toNat) : d.toNat * i + j < w.toNat * d.toNat := by
  have next : d.toNat * i + j < d.toNat * (i + 1) := by
    rw [Nat.mul_succ]
    omega
  have last : d.toNat * (i + 1) ≤ d.toNat * w.toNat := Nat.mul_le_mul_left _ low
  rw [Nat.mul_comm w.toNat]
  omega

/-- Different counters lie at different places. -/
theorem index_inj {i' j' : Nat} (inner : j < d.toNat) (inner' : j' < d.toNat)
    (same : d.toNat * i + j = d.toNat * i' + j') : i = i' ∧ j = j' := by
  have first := congrArg (· % d.toNat) same
  have second := congrArg (· / d.toNat) same
  simp only [Nat.mul_add_mod, Nat.mod_eq_of_lt inner, Nat.mod_eq_of_lt inner'] at first
  have positive : 0 < d.toNat := Nat.zero_lt_of_lt inner
  simp only [Nat.mul_add_div positive, Nat.div_eq_of_lt inner, Nat.div_eq_of_lt inner', Nat.add_zero] at second
  exact ⟨second, first⟩

theorem cmIndex_toNat (sized : Sized w d) (d_eq : cm.d = d) (low : i < w.toNat) :
    (cmIndex cm key i).toNat = d.toNat * i + slot d i key := by
  have small : i < 2 ^ 64 := low.trans w.toNat_lt
  have bound := index_lt (d := d) low (slot_lt sized i key)
  have fits := bound.trans sized.fits
  have product : d.toNat * i < 2 ^ 64 := by omega
  rw [cmIndex, d_eq, UInt64.toNat_add, UInt64.toNat_mul, UInt64.toNat_ofNat', Nat.mod_eq_of_lt small,
    Nat.mod_eq_of_lt product]
  exact Nat.mod_eq_of_lt fits

theorem Counts.congr (counts : Counts cm w d seen) {seen' : Nat → List (Key × Int)}
    (same : ∀ i < w.toNat, seen i = seen' i) : Counts cm w d seen' := by
  refine { counts with counter := fun i low j inner => ?_ }
  rw [← same i low]
  exact counts.counter i low j inner

/-- Two sketches whose rows have seen the same items in any order are the same. -/
theorem Counts.unique (counts : Counts cm w d fun _ => stream) (other : Counts next w d fun _ => later)
    (same : stream.Perm later) : cm = next := by
  have counters : cm.v = next.v := by
    apply List.ext_getElem?
    intro k
    by_cases low : k < w.toNat * d.toNat
    · have positive : 0 < d.toNat := Nat.pos_of_mul_pos_left (Nat.zero_lt_of_lt low)
      have inner := Nat.mod_lt k positive
      have row : k / d.toNat < w.toNat := Nat.div_lt_of_lt_mul (by rwa [Nat.mul_comm])
      have first := counts.counter _ row _ inner
      have second := other.counter _ row _ inner
      rw [Nat.div_add_mod] at first second
      rw [first, second, weight_perm _ same]
    · rw [List.getElem?_eq_none (by rw [counts.length]; omega), List.getElem?_eq_none (by rw [other.length]; omega)]
  cases cm
  cases next
  cases counts.w_eq
  cases counts.d_eq
  cases other.w_eq
  cases other.d_eq
  cases counters
  rfl

/-- The counter of a key in a row. -/
theorem Counts.read (counts : Counts cm w d seen) (sized : Sized w d) (low : i < w.toNat) (key : Key) :
    cmRead cm (cmIndex cm key i) = .ok (weight (fun other => slot d i other == slot d i key) (seen i)) := by
  rw [cmRead, cmIndex_toNat sized counts.d_eq low, counts.counter i low _ (slot_lt sized i key)]

/-- One turn of the loop of `cm_add`. -/
theorem Counts.addRow (counts : Counts cm w d seen) (sized : Sized w d) (low : done < w.toNat)
    (here : seen done = stream) (positive : ∀ item ∈ stream ++ [(key, val)], 0 ≤ item.2)
    (fits : total (stream ++ [(key, val)]) < 2 ^ 63) :
    ∃ next, cmAddRow key val cm done = .ok next ∧
      Counts next w d (Function.update seen done (stream ++ [(key, val)])) := by
  have read := counts.read sized low key
  rw [here] at read
  have added : weight (fun other => slot d done other == slot d done key) stream + val =
      weight (fun other => slot d done other == slot d done key) (stream ++ [(key, val)]) := by
    rw [weight_append, weight_singleton, if_pos (beq_self_eq_true _)]
  have least := weight_nonneg (fun other => slot d done other == slot d done key) positive
  have most := weight_le_total (fun other => slot d done other == slot d done key) positive
  have ran : cmAddRow key val cm done = .ok { cm with
      v := cm.v.set (d.toNat * done + slot d done key)
        (weight (fun other => slot d done other == slot d done key) (stream ++ [(key, val)])) } := by
    rw [cmAddRow, read, ← cmIndex_toNat sized counts.d_eq low, ← added]
    apply if_pos
    rw [added]
    omega
  refine ⟨_, ran, counts.w_eq, counts.d_eq, List.length_set.trans counts.length, ?_⟩
  intro i low' j inner
  have inside : d.toNat * done + slot d done key < cm.v.length := by
    rw [counts.length]
    exact index_lt low (slot_lt sized done key)
  by_cases same : d.toNat * i + j = d.toNat * done + slot d done key
  · rcases index_inj inner (slot_lt sized done key) same with ⟨rfl, rfl⟩
    rw [Function.update_self]
    exact List.getElem?_set_self inside
  · have old := counts.counter i low' j inner
    have kept : (cm.v.set (d.toNat * done + slot d done key)
        (weight (fun other => slot d done other == slot d done key) (stream ++ [(key, val)])))[d.toNat * i + j]? =
          cm.v[d.toNat * i + j]? := List.getElem?_set_ne (Ne.symm same)
    refine kept.trans (old.trans ?_)
    by_cases row : i = done
    · subst row
      have other : (slot d i key == j) = false := by
        apply beq_eq_false_iff_ne.mpr
        rintro rfl
        exact same rfl
      rw [here, Function.update_self, weight_append, weight_singleton]
      simp only [other, Bool.false_eq_true, if_false, add_zero]
    · rw [Function.update_of_ne row]

/-- The loop of `cm_add` over the first rows. -/
theorem Counts.addRows (counts : Counts cm w d fun _ => stream) (sized : Sized w d) (count : Nat)
    (few : count ≤ w.toNat) (positive : ∀ item ∈ stream ++ [(key, val)], 0 ≤ item.2)
    (fits : total (stream ++ [(key, val)]) < 2 ^ 63) :
    ∃ next, (List.range count).foldlM (cmAddRow key val) cm = .ok next ∧
      Counts next w d fun i => if i < count then stream ++ [(key, val)] else stream := by
  induction count with
  | zero => exact ⟨cm, rfl, counts.congr fun i _ => (if_neg (Nat.not_lt_zero i)).symm⟩
  | succ count ih =>
      rcases ih (Nat.le_of_succ_le few) with ⟨middle, ran, seen⟩
      rcases seen.addRow sized few (if_neg (lt_irrefl count)) positive fits with ⟨next, added, final⟩
      refine ⟨next, ?_, final.congr fun i _ => ?_⟩
      · rw [List.range_succ, List.foldlM_append, ran]
        change List.foldlM (cmAddRow key val) middle [count] = _
        rw [List.foldlM_cons, added]
        rfl
      · by_cases here : i = count
        · rw [here, Function.update_self, if_pos (Nat.lt_succ_self count)]
        · have before : i < count ↔ i < count + 1 := by omega
          rw [Function.update_of_ne here]
          simp only [before]

theorem Counts.add (counts : Counts cm w d fun _ => stream) (sized : Sized w d)
    (positive : ∀ item ∈ stream ++ [(key, val)], 0 ≤ item.2) (fits : total (stream ++ [(key, val)]) < 2 ^ 63) :
    ∃ next, cmAdd cm key val = .ok next ∧ Counts next w d fun _ => stream ++ [(key, val)] := by
  rcases counts.addRows sized w.toNat le_rfl positive fits with ⟨next, ran, seen⟩
  refine ⟨next, ?_, seen.congr fun i low => if_pos low⟩
  rw [cmAdd, counts.w_eq]
  exact ran

/-- A sequence of additions. -/
theorem Counts.adds (counts : Counts cm w d fun _ => stream) (sized : Sized w d)
    (positive : ∀ item ∈ stream ++ later, 0 ≤ item.2) (fits : total (stream ++ later) < 2 ^ 63) :
    ∃ next, cmAdds cm later = .ok next ∧ Counts next w d fun _ => stream ++ later := by
  induction later generalizing cm stream with
  | nil =>
      rw [List.append_nil]
      exact ⟨cm, rfl, counts⟩
  | cons item later ih =>
      have whole : stream ++ item :: later = stream ++ [item] ++ later := by simp
      rw [whole] at positive fits ⊢
      have rest : 0 ≤ total later := by
        rw [← weight_all]
        exact weight_nonneg _ fun item inside => positive item (by simp [inside])
      have sooner : total (stream ++ [item]) < 2 ^ 63 := by
        have sum : total (stream ++ [item] ++ later) = total (stream ++ [item]) + total later := by
          rw [total, List.map_append, List.sum_append]
          rfl
        omega
      rcases counts.add sized (fun item inside => positive item (List.mem_append_left _ inside)) sooner with
        ⟨middle, added, seen⟩
      rcases ih seen positive fits with ⟨next, ran, final⟩
      refine ⟨next, ?_, final⟩
      rw [cmAdds, List.foldlM_cons, added]
      exact ran

/-- The loop of `cm_get` over the first rows. -/
theorem Counts.getRows (counts : Counts cm w d fun _ => stream) (sized : Sized w d) (key : Key) (val : Int)
    (count : Nat) (few : count ≤ w.toNat) :
    ∃ est, (List.range count).foldlM (cmGetRow cm key) val = .ok est ∧
      (∀ i < count, est ≤ weight (fun other => slot d i other == slot d i key) stream) ∧
      (est = val ∨ ∃ i < count, est = weight (fun other => slot d i other == slot d i key) stream) := by
  induction count with
  | zero => exact ⟨val, rfl, fun i low => absurd low (Nat.not_lt_zero i), .inl rfl⟩
  | succ count ih =>
      rcases ih (Nat.le_of_succ_le few) with ⟨est, ran, least, among⟩
      have read := counts.read sized few key
      refine ⟨min est (weight (fun other => slot d count other == slot d count key) stream), ?_, ?_, ?_⟩
      · rw [List.range_succ, List.foldlM_append, ran]
        change List.foldlM (cmGetRow cm key) est [count] = _
        rw [List.foldlM_cons, cmGetRow, read]
        rfl
      · intro i low
        rcases Nat.lt_succ_iff_lt_or_eq.mp low with before | rfl
        · exact (min_le_left _ _).trans (least i before)
        · exact min_le_right _ _
      · rcases min_choice est (weight (fun other => slot d count other == slot d count key) stream) with old | new
        · rw [old]
          rcases among with start | ⟨i, low, here⟩
          · exact .inl start
          · exact .inr ⟨i, Nat.lt_succ_of_lt low, here⟩
        · exact .inr ⟨count, Nat.lt_succ_self count, new⟩

/-- What `cm_get` finds is the least counter of the key, if that is below the value it
starts from. -/
theorem Counts.get (counts : Counts cm w d fun _ => stream) (sized : Sized w d) (key : Key) (val : Int) :
    ∃ est, cmGet cm key val = .ok est ∧
      (∀ i < w.toNat, est ≤ weight (fun other => slot d i other == slot d i key) stream) ∧
      (est = val ∨ ∃ i < w.toNat, est = weight (fun other => slot d i other == slot d i key) stream) := by
  rw [cmGet, counts.w_eq]
  exact counts.getRows sized key val w.toNat le_rfl

/-- What a client relies on: counters that do not depend on the order of the
additions, and estimates between what was added for the key and the total. -/
def CmLawful (w d : UInt64) : Prop :=
  ∀ calloc : Nat → Bool, (∀ count, calloc count → 8 * count < 2 ^ 64) → ∀ cm, cmInit calloc w d = .ok cm →
    ∀ stream : List (Key × Int), (∀ item ∈ stream, 0 ≤ item.2) → total stream < 2 ^ 63 →
      ∃ final, cmAdds cm stream = .ok final ∧ (∀ other, other.Perm stream → cmAdds cm other = .ok final) ∧
        ∀ key, ∃ est, cmGet final key cmMax = .ok est ∧ weight (· == key) stream ≤ est ∧ est ≤ total stream

theorem counts_init (sized : Sized w d) : Counts ⟨w, d, List.replicate (w * d).toNat 0⟩ w d fun _ => [] := by
  have product : (w * d).toNat = w.toNat * d.toNat := by rw [UInt64.toNat_mul, Nat.mod_eq_of_lt sized.fits]
  refine ⟨rfl, rfl, ?_, fun i low j inner => ?_⟩
  · rw [List.length_replicate, product]
  · rw [weight_nil]
    apply List.getElem?_replicate_of_lt
    rw [product]
    exact index_lt low inner

theorem total_perm {first second : List (Key × Int)} (same : first.Perm second) : total first = total second :=
  (same.map _).sum_eq

theorem cmLawful_of_sized (sized : Sized w d) : CmLawful w d := by
  intro calloc _ cm made stream positive fits
  rw [cmInit] at made
  split at made
  · cases made
    rcases (counts_init sized).adds sized positive fits with ⟨final, ran, seen⟩
    rw [List.nil_append] at seen
    refine ⟨final, ran, fun other same => ?_, fun key => ?_⟩
    · have positive' : ∀ item ∈ other, 0 ≤ item.2 := fun item inside => positive item (same.subset inside)
      have fits' : total other < 2 ^ 63 := by rwa [total_perm same]
      rcases (counts_init sized).adds sized positive' fits' with ⟨final', ran', seen'⟩
      rw [List.nil_append] at seen'
      rw [ran', seen'.unique seen same]
    · rcases seen.get sized key cmMax with ⟨est, found, least, among⟩
      refine ⟨est, found, ?_, (least 0 sized.rows).trans (weight_le_total _ positive)⟩
      rcases among with rfl | ⟨i, -, rfl⟩
      · have most := weight_le_total (· == key) positive
        rw [cmMax]
        omega
      · apply weight_mono _ positive
        intro other here
        rw [eq_of_beq here]
        exact beq_self_eq_true _
  · cases made

theorem cmAddRow_ok (ran : cmAddRow key val cm i = .ok next) :
    (cmIndex cm key i).toNat < cm.v.length ∧ next.d = cm.d ∧ next.v.length = cm.v.length := by
  rw [cmAddRow, cmRead] at ran
  cases found : cm.v[(cmIndex cm key i).toNat]? with
  | none =>
      rw [found] at ran
      cases ran
  | some v =>
      rw [found] at ran
      change (if _ then _ else _) = _ at ran
      split at ran
      · cases ran
        exact ⟨(List.getElem?_eq_some_iff.mp found).1, rfl, List.length_set⟩
      · cases ran

/-- Every row whose turn comes has its counter. -/
theorem cmAddRows_ok (count : Nat) (ran : (List.range count).foldlM (cmAddRow key val) cm = .ok next) :
    (∀ i < count, (cmIndex cm key i).toNat < cm.v.length) ∧ next.d = cm.d ∧ next.v.length = cm.v.length := by
  induction count generalizing next with
  | zero =>
      cases ran
      exact ⟨fun i low => absurd low (Nat.not_lt_zero i), rfl, rfl⟩
  | succ count ih =>
      rw [List.range_succ, List.foldlM_append] at ran
      rcases Memory.of_bind_ok ran with ⟨middle, first, last⟩
      rw [List.foldlM_cons] at last
      rcases Memory.of_bind_ok last with ⟨final, row, rest⟩
      cases rest
      rcases ih first with ⟨before, d_eq, length⟩
      rcases cmAddRow_ok row with ⟨here, d_eq', length'⟩
      refine ⟨fun i low => ?_, d_eq'.trans d_eq, length'.trans length⟩
      rcases Nat.lt_succ_iff_lt_or_eq.mp low with lower | rfl
      · exact before i lower
      · have same : cmIndex middle key i = cmIndex cm key i := by rw [cmIndex, cmIndex, d_eq]
        rwa [same, length] at here

/-- A product that is cut off leaves some key without a counter. -/
theorem not_cmLawful (columns : 0 < d) (wraps : ¬ w.toNat * d.toNat < 2 ^ 64) (small : 8 * (w * d).toNat < 2 ^ 64) :
    ¬ CmLawful w d := by
  intro lawful
  have positive : 0 < d.toNat := UInt64.lt_iff_toNat_lt.mp columns
  have wrapped : (w * d).toNat < w.toNat * d.toNat := by
    have low := (w * d).toNat_lt
    omega
  have row : (w * d).toNat / d.toNat < w.toNat := Nat.div_lt_of_lt_mul (by rwa [Nat.mul_comm])
  have column := Nat.mod_lt (w * d).toNat positive
  rcases fasthash_surjective (UInt64.ofNat ((w * d).toNat / d.toNat)) (UInt64.ofNat ((w * d).toNat % d.toNat)) with
    ⟨key, hash⟩
  let cm : Cm := ⟨w, d, List.replicate (w * d).toNat 0⟩
  have made : cmInit (fun count => decide (8 * count < 2 ^ 64)) w d = .ok cm := if_pos (decide_eq_true small)
  rcases lawful _ (fun count granted => of_decide_eq_true granted) cm made [(key, 0)] (by simp) (by simp [total]) with
    ⟨final, ran, -⟩
  rw [cmAdds, List.foldlM_cons] at ran
  rcases Memory.of_bind_ok ran with ⟨next, added, -⟩
  have inside := (cmAddRows_ok _ added).1 _ row
  have index : (cmIndex cm key ((w * d).toNat / d.toNat)).toNat = (w * d).toNat := by
    have bounded := (w * d).toNat_lt
    have low : (w * d).toNat / d.toNat < 2 ^ 64 := (Nat.div_le_self _ _).trans_lt bounded
    have low' : (w * d).toNat % d.toNat < 2 ^ 64 := (Nat.mod_le _ _).trans_lt bounded
    have whole := Nat.div_add_mod (w * d).toNat d.toNat
    have product : d.toNat * ((w * d).toNat / d.toNat) < 2 ^ 64 := by omega
    rw [cmIndex, hash, UInt64.toNat_add, UInt64.toNat_mul, UInt64.toNat_mod, UInt64.toNat_ofNat', UInt64.toNat_ofNat',
      Nat.mod_eq_of_lt low, Nat.mod_eq_of_lt low', Nat.mod_mod, Nat.mod_eq_of_lt product, whole, Nat.mod_eq_of_lt bounded]
  rw [index, List.length_replicate] at inside
  exact lt_irrefl _ inside

/-- The sketch keeps its promises exactly when the number of its counters is one that
memory can be had for, or none is made at all. -/
theorem cmLawful_iff (w d : UInt64) (rows : 0 < w) (columns : 0 < d) :
    CmLawful w d ↔ w.toNat * d.toNat < 2 ^ 64 ∨ 2 ^ 64 ≤ 8 * (w * d).toNat := by
  have positive : 0 < w.toNat := UInt64.lt_iff_toNat_lt.mp rows
  have positive' : 0 < d.toNat := UInt64.lt_iff_toNat_lt.mp columns
  constructor
  · intro lawful
    by_contra neither
    rw [not_or, Nat.not_le] at neither
    exact not_cmLawful columns neither.1 neither.2 lawful
  · rintro (fits | large)
    · exact cmLawful_of_sized ⟨positive, positive', fits⟩
    · intro calloc honest cm made
      rw [cmInit] at made
      split at made
      next granted => exact absurd (honest _ granted) (Nat.not_lt.mpr large)
      next => cases made

theorem cmLawful_sample : CmLawful 4 1024 := (cmLawful_iff 4 1024 (by decide) (by decide)).mpr (.inl (by decide))

/-- For 2^63 + 1 rows of two columns there are two counters. -/
theorem not_cmLawful_wrapped : ¬ CmLawful 9223372036854775809 2 :=
  not_cmLawful (by decide) (by decide) (by decide)

end MnCommon.Sketches
