import MnCommon.ByteStrings.UrlEncode

/-! What `bytes_urldecode` makes of any string, and `bytes_brushdown` of one whose percent signs are
all followed by two digits. -/

namespace MnCommon.ByteStrings

variable {x y z : MnBytes} {data text front behind rest stale other bytes out us vs : List UInt8} {c d high low : UInt8}
  {sz fuel src dst k m : Nat}

/-- The bytes in front of `dst` when the loop ends. -/
def leftBy (read : Nat → Nat → List UInt8 → UInt8 × Nat) (dropped : UInt8 → Bool) (sz fuel src dst : Nat)
    (data : List UInt8) : List UInt8 :=
  (rewriteLoop read dropped sz fuel src dst data).2.take (rewriteLoop read dropped sz fuel src dst data).1

section Loop
variable {read : Nat → Nat → List UInt8 → UInt8 × Nat} {dropped : UInt8 → Bool}

theorem leftBy_end (read : Nat → Nat → List UInt8 → UInt8 × Nat) (dropped : UInt8 → Bool) (sz fuel dst : Nat)
    (data : List UInt8) : leftBy read dropped sz fuel sz dst data = data.take dst := by
  cases fuel with
  | zero => rfl
  | succ fuel =>
      have past : ¬ sz < sz := Nat.lt_irrefl sz
      rw [leftBy, rewriteLoop, if_neg past]

theorem leftBy_dropped (inside : src < sz) (one : read src dst data = (c, k)) (drop : dropped c = true) :
    leftBy read dropped sz (fuel + 1) src dst data = leftBy read dropped sz fuel k dst (data.set dst c) := by
  rw [leftBy, rewriteLoop, if_pos inside, one, if_pos drop]
  rfl

/-- One byte and what is left behind it. -/
theorem leftBy_kept (inside : src < sz) (one : read src dst data = (c, k)) (keep : dropped c = false)
    (room : dst < data.length)
    (later : leftBy read dropped sz fuel k (dst + 1) (data.set dst c) = (data.set dst c).take (dst + 1) ++ bytes) :
    leftBy read dropped sz (fuel + 1) src dst data = data.take dst ++ c :: bytes := by
  have kept : ¬ dropped c = true := by
    rw [keep]
    exact Bool.false_ne_true
  have length : dst < (data.set dst c).length := by rwa [List.length_set]
  have front : (data.set dst c).take (dst + 1) = data.take dst ++ [c] := by
    rw [List.take_succ_eq_append_getElem length, List.take_set_of_le (Nat.le_refl dst), List.getElem_set_self]
  calc
    leftBy read dropped sz (fuel + 1) src dst data = leftBy read dropped sz fuel k (dst + 1) (data.set dst c) := by
      rw [leftBy, rewriteLoop, if_pos inside, one, if_neg kept]
      rfl
    _ = data.take dst ++ [c] ++ bytes := by rw [later, front]
    _ = data.take dst ++ c :: bytes := List.append_assoc _ _ _

/-- The NUL takes the place of the last byte that the loop has left. -/
theorem rewritten_content (further : ∀ src dst data, src < (read src dst data).2) (filled : out ≠ [])
    (left : leftBy read dropped x.sz x.sz 0 0 x.data = out) :
    (x.rewritten read dropped further).sz = out.length ∧
      (x.rewritten read dropped further).content = out.dropLast ++ [0] := by
  rcases rewriteLoop_fits further dropped x.sz x.sz 0 0 x.data (Nat.le_refl 0) (Nat.zero_le _) with ⟨short, length⟩
  rw [leftBy] at left
  have size : (rewriteLoop read dropped x.sz x.sz 0 0 x.data).1 = out.length := by
    rw [← left, List.length_take_of_le]
    rw [length]
    exact short.trans x.fits
  have positive := List.length_pos_iff.mpr filled
  refine ⟨size, ?_⟩
  change (putNul (rewriteLoop read dropped x.sz x.sz 0 0 x.data).1 (rewriteLoop read dropped x.sz x.sz 0 0 x.data).2).take
    (rewriteLoop read dropped x.sz x.sz 0 0 x.data).1 = _
  rw [putNul, if_neg (by omega), List.take_set, left, size]
  rcases (List.eq_nil_or_concat out).resolve_left filled with ⟨before, last, shape⟩
  rw [shape, List.concat_eq_append, List.length_append, List.length_singleton, Nat.add_sub_cancel,
    List.set_append_right _ _ (Nat.le_refl _), Nat.sub_self, List.dropLast_concat]
  rfl

end Loop

/-- The percent signs that have two bytes behind them, from the left. -/
def escapes : List UInt8 → Nat
  | 37 :: _ :: _ :: rest => escapes rest + 1
  | _ :: rest => escapes rest
  | [] => 0

/-- No escape goes on behind the text. -/
def Whole : List UInt8 → Prop
  | 37 :: _ :: _ :: rest => Whole rest
  | c :: rest => c ≠ 37 ∧ Whole rest
  | [] => True

/-- What is written for a text from where `stale` is in the memory. -/
def decoded : List UInt8 → List UInt8 → List UInt8
  | stale, 37 :: high :: low :: rest => percent high low (stale.headD 0) :: decoded stale.tail rest
  | stale, c :: rest => (if c = 43 then 32 else c) :: decoded stale.tail rest
  | _, [] => []

theorem escapes_plain (plain : ∀ high low later, c = 37 → rest = high :: low :: later → False) :
    escapes (c :: rest) = escapes rest := by
  rw [escapes]
  exact plain

theorem decoded_plain (plain : ∀ high low later, c = 37 → rest = high :: low :: later → False) :
    decoded stale (c :: rest) = (if c = 43 then 32 else c) :: decoded stale.tail rest := by
  rw [decoded]
  exact plain

theorem whole_plain (plain : ∀ high low later, c = 37 → rest = high :: low :: later → False) :
    Whole (c :: rest) ↔ c ≠ 37 ∧ Whole rest := by
  rw [Whole]
  exact plain

theorem escapes_short (text : List UInt8) : 2 * escapes text ≤ text.length := by
  induction text using escapes.induct with
  | case1 high low rest ih =>
      rw [escapes, List.length_cons, List.length_cons, List.length_cons]
      omega
  | case2 c rest plain ih =>
      rw [escapes_plain plain, List.length_cons]
      omega
  | case3 => exact Nat.le_refl 0

/-- An escape makes one byte, as every other byte does. -/
theorem behind_escape (high low : UInt8) (rest : List UInt8) :
    (37 :: high :: low :: rest).length - 2 * escapes (37 :: high :: low :: rest) = rest.length - 2 * escapes rest + 1 := by
  have short := escapes_short rest
  rw [escapes, List.length_cons, List.length_cons, List.length_cons]
  omega

theorem behind_plain (plain : ∀ high low later, c = 37 → rest = high :: low :: later → False) :
    (c :: rest).length - 2 * escapes (c :: rest) = rest.length - 2 * escapes rest + 1 := by
  have short := escapes_short rest
  rw [escapes_plain plain, List.length_cons]
  omega

/-- The last two bytes of a text are those of a longer one. -/
theorem last_two_cons (later : c ∈ rest.drop (rest.length - 2)) (d : UInt8) :
    c ∈ (d :: rest).drop ((d :: rest).length - 2) := by
  by_cases long : 2 ≤ rest.length
  · have further : (d :: rest).length - 2 = (rest.length - 2) + 1 := by
      rw [List.length_cons]
      omega
    rw [further]
    exact later
  · have all : (d :: rest).length - 2 = 0 := by
      rw [List.length_cons]
      omega
    rw [all]
    exact List.mem_cons_of_mem d (List.mem_of_mem_drop later)

/-- A text without percent signs in its last two bytes. -/
theorem whole_of_last_two (without : 37 ∉ text.drop (text.length - 2)) : Whole text := by
  induction text using escapes.induct with
  | case1 high low rest ih =>
      apply ih
      intro later
      exact without (last_two_cons (last_two_cons (last_two_cons later low) high) 37)
  | case2 c rest plain ih =>
      rw [whole_plain plain]
      constructor
      · rintro rfl
        cases rest with
        | nil => exact without List.mem_cons_self
        | cons high rest =>
            cases rest with
            | nil => exact without List.mem_cons_self
            | cons low rest => exact plain high low rest rfl rfl
      · exact ih fun later => without (last_two_cons later c)
  | case3 => trivial

/-- A whole text is decoded before what is behind it. -/
theorem decoded_append (whole : Whole us) (stale vs : List UInt8) :
    decoded stale (us ++ vs) = decoded stale us ++ decoded (stale.drop (us.length - 2 * escapes us)) vs := by
  induction us using escapes.induct generalizing stale with
  | case1 high low rest ih =>
      rw [behind_escape, ← List.drop_tail]
      exact congrArg _ (ih whole stale.tail)
  | case2 c rest plain ih =>
      rw [whole_plain plain] at whole
      have still : ∀ high low later, c = 37 → rest ++ vs = high :: low :: later → False :=
        fun _ _ _ percent _ => whole.1 percent
      rw [behind_plain plain, List.cons_append, decoded_plain still, decoded_plain plain, ih whole.2, ← List.drop_tail]
      rfl
  | case3 => rfl

/-- Only as many bytes of the memory matter as the text has. -/
theorem decoded_take (stale : List UInt8) (long : text.length ≤ m) : decoded (stale.take m) text = decoded stale text := by
  induction text using escapes.induct generalizing stale m with
  | case1 high low rest ih =>
      cases m with
      | zero => cases long
      | succ m =>
          have later := ih (m := m) stale.tail (by simp only [List.length_cons] at long; omega)
          cases stale with
          | nil => rfl
          | cons old stale => exact congrArg _ later
  | case2 c rest plain ih =>
      cases m with
      | zero => cases long
      | succ m =>
          have later := ih (m := m) stale.tail (Nat.le_of_succ_le_succ long)
          rw [decoded_plain plain, decoded_plain plain]
          cases stale with
          | nil => rfl
          | cons old stale => exact congrArg _ later
  | case3 => rfl

theorem getD_drop_head (data : List UInt8) (dst : Nat) : data.getD dst 0 = (data.drop dst).headD 0 := by
  rw [List.headD_eq_head?_getD, List.head?_drop, List.getD_eq_getElem?_getD]

theorem drop_set_succ (data : List UInt8) (dst : Nat) (c : UInt8) :
    (data.set dst c).drop (dst + 1) = (data.drop dst).tail := by
  rw [List.drop_set_of_lt (Nat.lt_succ_self dst), List.tail_drop]

/-- The loop of `bytes_urldecode` from `src` on. -/
theorem urldecode_left (ahead : data.drop src = text ++ behind) (size : sz = src + text.length) (fits : sz ≤ data.length)
    (enough : text.length ≤ fuel) (order : dst ≤ src) :
    leftBy (unquotedPlus sz) (fun _ => false) sz fuel src dst data = data.take dst ++ decoded (data.drop dst) text := by
  induction text using escapes.induct generalizing src dst data fuel with
  | case1 high low rest ih =>
      cases fuel with
      | zero => cases enough
      | succ fuel =>
          simp only [List.length_cons] at size enough
          have here := getD_of_drop ahead
          have first := getD_of_drop (drop_succ ahead)
          have second := getD_of_drop (drop_succ (drop_succ ahead))
          have one : unquotedPlus sz src dst data = (percent high low ((data.drop dst).headD 0), src + 3) := by
            rw [unquotedPlus, here, if_neg (by decide), unquoted, here, first, second, getD_drop_head,
              if_pos ⟨rfl, by omega⟩]
          apply leftBy_kept (by omega) one rfl (by omega)
          rw [← drop_set_succ data dst (percent high low ((data.drop dst).headD 0))]
          apply ih
          · exact (List.drop_set_of_lt (by omega)).trans (drop_succ (drop_succ (drop_succ ahead)))
          · omega
          · rwa [List.length_set]
          · omega
          · omega
  | case2 c rest plain ih =>
      cases fuel with
      | zero => cases enough
      | succ fuel =>
          rw [List.length_cons] at size enough
          have here := getD_of_drop ahead
          have single : ¬ (c = 37 ∧ src + 2 < sz) := by
            rintro ⟨percent, inside⟩
            have two : 2 ≤ rest.length := by omega
            rcases rest with _ | ⟨high, _ | ⟨low, later⟩⟩
            · simp at two
            · simp at two
            · exact plain high low later percent rfl
          have one : unquotedPlus sz src dst data = ((if c = 43 then 32 else c), src + 1) := by
            rw [unquotedPlus, here]
            split
            · rfl
            · rw [unquoted, here, if_neg single]
          rw [decoded_plain plain, ← drop_set_succ data dst (if c = 43 then 32 else c)]
          apply leftBy_kept (by omega) one rfl (by omega)
          apply ih
          · exact (List.drop_set_of_lt (by omega)).trans (drop_succ ahead)
          · omega
          · rwa [List.length_set]
          · omega
          · omega
  | case3 =>
      rw [List.length_nil, Nat.add_zero] at size
      rw [size, leftBy_end, decoded, List.append_nil]

theorem decoded_ne_nil (stale : List UInt8) (filled : text ≠ []) : decoded stale text ≠ [] := by
  induction text using escapes.induct generalizing stale with
  | case1 high low rest => exact List.cons_ne_nil _ _
  | case2 c rest plain =>
      rw [decoded_plain plain]
      exact List.cons_ne_nil _ _
  | case3 => exact absurd rfl filled

theorem decoded_filled (stale text : List UInt8) : decoded stale (text ++ [0]) ≠ [] := by
  apply decoded_ne_nil
  exact List.append_ne_nil_of_right_ne_nil text (List.cons_ne_nil 0 [])

theorem bytesUrldecode_content (content : x.content = text ++ [0]) :
    (bytesUrldecode x).content = (decoded (text ++ [0]) (text ++ [0])).dropLast ++ [0] := by
  have whole : x.data = text ++ [0] ++ x.data.drop x.sz := by
    rw [← content]
    exact (List.take_append_drop x.sz x.data).symm
  have size : x.sz = 0 + (text ++ [0]).length := by
    rw [size_of_ends content, Nat.zero_add, List.length_append, List.length_singleton]
  have left : leftBy (unquotedPlus x.sz) (fun _ => false) x.sz x.sz 0 0 x.data = _ :=
    urldecode_left whole size x.fits (by omega) (Nat.le_refl 0)
  have front : x.data.take (text ++ [0]).length = text ++ [0] := by
    rw [← content, length_content]
    rfl
  rw [List.take_zero, List.nil_append, List.drop_zero, ← decoded_take x.data (Nat.le_refl _), front] at left
  exact (rewritten_content _ (decoded_filled _ text) left).2

/-- Two pieces of memory that agree, up to the bits of the second digit, on what an escape without a first
digit keeps of them. -/
def SameStale (text stale other : List UInt8) : Prop :=
  ∀ front high low rest, text = front ++ 37 :: high :: low :: rest → Whole front → hexOf high = none →
    stale.getD (front.length - 2 * escapes front) 0 ||| (hexOf low).getD 0 =
      other.getD (front.length - 2 * escapes front) 0 ||| (hexOf low).getD 0

theorem percent_eq_iff (high low c d : UInt8) :
    percent high low c = percent high low d ↔
      (hexOf high = none → c ||| (hexOf low).getD 0 = d ||| (hexOf low).getD 0) := by
  rw [percent, percent]
  cases hexOf high with
  | some v => exact iff_of_true rfl (by simp)
  | none =>
      rw [forall_prop_of_true rfl]
      cases hexOf low with
      | some v => exact Iff.rfl
      | none => rw [Option.getD_none, UInt8.or_zero, UInt8.or_zero]

theorem getD_succ_tail (bytes : List UInt8) (k : Nat) : bytes.getD (k + 1) 0 = bytes.tail.getD k 0 := by
  cases bytes <;> rfl

theorem getD_zero_head (bytes : List UInt8) : bytes.getD 0 0 = bytes.headD 0 := by
  cases bytes <;> rfl

theorem sameStale_escape :
    SameStale (37 :: high :: low :: rest) stale other ↔
      percent high low (stale.headD 0) = percent high low (other.headD 0) ∧ SameStale rest stale.tail other.tail := by
  rw [percent_eq_iff]
  constructor
  · intro same
    constructor
    · intro missing
      rw [← getD_zero_head, ← getD_zero_head]
      exact same [] high low rest rfl trivial missing
    · intro front first second later shape whole missing
      have further := same (37 :: high :: low :: front) first second later (by rw [shape]; rfl) whole missing
      rwa [behind_escape, getD_succ_tail, getD_succ_tail] at further
  · rintro ⟨here, later⟩ front first second behind shape whole missing
    match front with
    | [] =>
        cases shape
        rw [List.length_nil, Nat.zero_sub, getD_zero_head, getD_zero_head]
        exact here missing
    | [_] =>
        cases shape
        exact absurd rfl whole.1
    | [_, _] =>
        cases shape
        exact absurd rfl whole.1
    | _ :: _ :: _ :: front =>
        cases shape
        rw [behind_escape, getD_succ_tail, getD_succ_tail]
        exact later front first second behind rfl whole missing

/-- Where an escape follows, a byte that starts none is no percent sign. -/
theorem ne_percent (plain : ∀ high low later, c = 37 → rest = high :: low :: later → False)
    (shape : rest = front ++ 37 :: high :: low :: behind) : c ≠ 37 := by
  intro percent
  cases front with
  | nil => exact plain 37 high (low :: behind) percent shape
  | cons first front =>
      cases front with
      | nil => exact plain first 37 (high :: low :: behind) percent shape
      | cons second front => exact plain first second (front ++ 37 :: high :: low :: behind) percent shape

theorem sameStale_plain (plain : ∀ high low later, c = 37 → rest = high :: low :: later → False) :
    SameStale (c :: rest) stale other ↔ SameStale rest stale.tail other.tail := by
  constructor
  · intro same front high low later shape whole missing
    have sign := ne_percent plain shape
    have start : ∀ high low later, c = 37 → front = high :: low :: later → False := fun _ _ _ percent _ => sign percent
    have further := same (c :: front) high low later (by rw [shape]; rfl) ((whole_plain start).mpr ⟨sign, whole⟩) missing
    rwa [behind_plain start, getD_succ_tail, getD_succ_tail] at further
  · intro same front high low later shape whole missing
    cases front with
    | nil =>
        cases shape
        exact absurd rfl fun percent => plain high low later percent rfl
    | cons first front =>
        rcases List.cons.inj shape with ⟨rfl, behind⟩
        have sign := ne_percent plain behind
        have start : ∀ high low later, c = 37 → front = high :: low :: later → False := fun _ _ _ percent _ => sign percent
        rw [behind_plain start, getD_succ_tail, getD_succ_tail]
        exact same front high low later behind ((whole_plain start).mp whole).2 missing

/-- Two pieces of memory in front of the same text. -/
theorem decoded_eq_iff (text stale other : List UInt8) :
    (decoded stale (text ++ [0])).dropLast = (decoded other (text ++ [0])).dropLast ↔ SameStale text stale other := by
  induction text using escapes.induct generalizing stale other with
  | case1 high low rest ih =>
      rw [sameStale_escape, ← ih, ← List.cons_eq_cons, ← List.dropLast_cons_of_ne_nil (decoded_filled _ rest),
        ← List.dropLast_cons_of_ne_nil (decoded_filled _ rest)]
      rfl
  | case2 c rest plain ih =>
      by_cases sign : c = 37
      · -- the text is too short for an escape that ends in front of the NUL
        have vacuous : SameStale (c :: rest) stale other :=
          fun front high low later shape whole missing => by
            cases front with
            | nil =>
                cases shape
                exact absurd rfl fun percent => plain high low later percent rfl
            | cons first front => exact absurd sign (ne_percent plain (List.cons.inj shape).2)
        apply iff_of_true _ vacuous
        match rest with
        | [] =>
            subst sign
            rfl
        | [high] =>
            subst sign
            rfl
        | high :: low :: later => exact absurd rfl fun shape => plain high low later sign shape
      · have still : ∀ high low later, c = 37 → rest ++ [0] = high :: low :: later → False :=
          fun _ _ _ percent _ => sign percent
        rw [sameStale_plain plain, ← ih, List.cons_append, decoded_plain still, decoded_plain still,
          List.dropLast_cons_of_ne_nil (decoded_filled _ rest), List.dropLast_cons_of_ne_nil (decoded_filled _ rest),
          List.cons_inj_right]
  | case3 =>
      apply iff_of_true rfl
      intro front high low rest shape
      cases front <;> cases shape

theorem getD_append_zero (bytes : List UInt8) (k : Nat) : (bytes ++ [0]).getD k 0 = bytes.getD k 0 := by
  rcases Nat.lt_trichotomy k bytes.length with inside | rfl | outside
  · exact List.getD_append bytes [0] 0 k inside
  · rw [List.getD_append_right _ _ _ _ (Nat.le_refl _), Nat.sub_self, List.getD_eq_default _ _ (Nat.le_refl _)]
    rfl
  · rw [List.getD_eq_default _ _ outside.le, List.getD_eq_default]
    rw [List.length_append]
    exact outside

/-- Decoding two strings behind one another does what decoding them apart does, without the NUL between
them, as long as no escape keeps anything else of the memory. -/
theorem urldecode_local_iff (us vs : List UInt8) (without : 37 ∉ us.drop (us.length - 2)) {x y z : MnBytes}
    (first : x.content = us ++ [0]) (second : y.content = vs ++ [0]) (both : z.content = us ++ vs ++ [0]) :
    (bytesUrldecode z).content = (bytesUrldecode x).content.dropLast ++ (bytesUrldecode y).content ↔
      ∀ front high low rest, vs = front ++ 37 :: high :: low :: rest → Whole front → hexOf high = none →
        (us ++ vs).getD (us.length - 2 * escapes us + (front.length - 2 * escapes front)) 0 ||| (hexOf low).getD 0 =
          vs.getD (front.length - 2 * escapes front) 0 ||| (hexOf low).getD 0 := by
  have whole := whole_of_last_two without
  have parts : decoded (us ++ vs ++ [0]) (us ++ vs ++ [0]) =
      decoded (us ++ [0]) us ++ decoded ((us ++ vs ++ [0]).drop (us.length - 2 * escapes us)) (vs ++ [0]) := by
    rw [List.append_assoc, decoded_append whole, ← decoded_take (us ++ (vs ++ [0])) (Nat.le_refl us.length), List.take_left,
      ← decoded_take (us ++ [0]) (Nat.le_refl us.length), List.take_left]
  have alone : decoded (us ++ [0]) (us ++ [0]) = decoded (us ++ [0]) us ++ [0] := by
    rw [decoded_append whole]
    rfl
  rw [bytesUrldecode_content both, bytesUrldecode_content first, bytesUrldecode_content second, parts, alone,
    List.dropLast_append_of_ne_nil (decoded_filled _ vs), List.dropLast_concat, List.dropLast_concat, List.append_assoc,
    List.append_cancel_left_eq, List.append_cancel_right_eq, decoded_eq_iff, SameStale]
  have behind : ∀ k, ((us ++ vs ++ [0]).drop (us.length - 2 * escapes us)).getD k 0 =
      (us ++ vs).getD (us.length - 2 * escapes us + k) 0 := by
    intro k
    rw [List.getD_eq_getElem?_getD, List.getElem?_drop, ← List.getD_eq_getElem?_getD, getD_append_zero]
  simp only [behind, getD_append_zero]

/-- A plain byte in front of another one. -/
theorem urldecode_local_iff_ab :
    (37 ∉ ([97] : List UInt8).drop (1 - 2)) ∧
      ((bytesUrldecode ⟨1, 3, 0, [97, 98, 0], le_rfl⟩).content =
          (bytesUrldecode ⟨1, 2, 0, [97, 0], le_rfl⟩).content.dropLast ++ (bytesUrldecode ⟨1, 2, 0, [98, 0], le_rfl⟩).content ↔
        ∀ front high low rest, [98] = front ++ 37 :: high :: low :: rest → Whole front → hexOf high = none →
          ([97] ++ [98] : List UInt8).getD (1 - 2 * escapes [97] + (front.length - 2 * escapes front)) 0 ||| (hexOf low).getD 0 =
            ([98] : List UInt8).getD (front.length - 2 * escapes front) 0 ||| (hexOf low).getD 0) :=
  ⟨by decide, urldecode_local_iff [97] [98] (by decide) rfl rfl rfl⟩

/-- Behind "%41" the escape "%zz" keeps the 4 that has been there. -/
theorem urldecode_keeps :
    (37 ∉ ([37, 52, 49] : List UInt8).drop (3 - 2)) ∧
      (bytesUrldecode ⟨1, 7, 0, [37, 52, 49, 37, 122, 122, 0], le_rfl⟩).content ≠
        (bytesUrldecode ⟨1, 4, 0, [37, 52, 49, 0], le_rfl⟩).content.dropLast ++
          (bytesUrldecode ⟨1, 4, 0, [37, 122, 122, 0], le_rfl⟩).content := by
  decide

/-- A text with its escapes replaced by the bytes that they stand for. -/
def percentDecoded : List UInt8 → List UInt8
  | 37 :: high :: low :: rest => (16 * (hexOf high).getD 0 + (hexOf low).getD 0) :: percentDecoded rest
  | c :: rest => c :: percentDecoded rest
  | [] => []

/-- Every percent sign has two digits behind it. -/
def Quoted (text : List UInt8) : Prop :=
  ∀ front rest, text = front ++ 37 :: rest →
    ∃ high low later, rest = high :: low :: later ∧ (hexOf high).isSome ∧ (hexOf low).isSome

theorem percentDecoded_plain (plain : ∀ high low later, c = 37 → rest = high :: low :: later → False) :
    percentDecoded (c :: rest) = c :: percentDecoded rest := by
  rw [percentDecoded]
  exact plain

theorem Quoted.later (us : List UInt8) (quoted : Quoted (us ++ vs)) : Quoted vs := by
  intro front rest shape
  exact quoted (us ++ front) rest (by rw [shape, List.append_assoc])

theorem hexOf_lt (digit : hexOf c = .some d) : d.toNat < 16 := by
  have within : ∀ low high : UInt8, low ≤ c ∧ c ≤ high → (c - low).toNat ≤ high.toNat - low.toNat := by
    rintro low high ⟨least, most⟩
    rw [UInt8.toNat_sub_of_le _ _ least]
    exact Nat.sub_le_sub_right (UInt8.le_iff_toNat_le.mp most) low.toNat
  have letter : ∀ low high back : UInt8, low ≤ c ∧ c ≤ high → back ≤ low → (c - back).toNat ≤ high.toNat - back.toNat :=
    fun low high back range less => within back high ⟨UInt8.le_trans less range.1, range.2⟩
  rw [hexOf] at digit
  split at digit
  next range =>
    cases digit
    exact (within 48 57 range).trans_lt (by decide)
  next =>
    split at digit
    next range =>
      cases digit
      exact (letter 65 70 55 range (by decide)).trans_lt (by decide)
    next =>
      split at digit
      next range =>
        cases digit
        exact (letter 97 102 87 range (by decide)).trans_lt (by decide)
      next => cases digit

/-- Two digits, whatever has been in the memory. -/
theorem percent_quoted (first : (hexOf high).isSome) (second : (hexOf low).isSome) (old : UInt8) :
    percent high low old = 16 * (hexOf high).getD 0 + (hexOf low).getD 0 := by
  rcases Option.isSome_iff_exists.mp first with ⟨a, upper⟩
  rcases Option.isSome_iff_exists.mp second with ⟨b, lower⟩
  have few := hexOf_lt upper
  have small := hexOf_lt lower
  rw [percent, upper, lower, Option.getD_some, Option.getD_some]
  apply UInt8.toNat_inj.mp
  calc
    (a <<< 4 ||| b).toNat = a.toNat <<< 4 % 2 ^ 8 ||| b.toNat := by rw [UInt8.toNat_or, UInt8.toNat_shiftLeft]; rfl
    _ = a.toNat <<< 4 ||| b.toNat := by rw [Nat.mod_eq_of_lt]; rw [Nat.shiftLeft_eq]; omega
    _ = a.toNat <<< 4 + b.toNat := (Nat.shiftLeft_add_eq_or_of_lt small a.toNat).symm
    _ = (16 * a + b).toNat := by
      rw [Nat.shiftLeft_eq, UInt8.toNat_add, UInt8.toNat_mul]
      change _ = (16 * a.toNat % 2 ^ 8 + b.toNat) % 2 ^ 8
      omega

/-- A byte that is left out when it is a blank. -/
theorem brushdown_one (inside : src < sz) (one : unquoted sz src dst data = (c, k)) (room : dst < data.length)
    (later : ∀ d, dst ≤ d → d ≤ dst + 1 →
      leftBy (unquoted sz) (fun c => c = 32) sz fuel k d (data.set dst c) = (data.set dst c).take d ++ bytes) :
    leftBy (unquoted sz) (fun c => c = 32) sz (fuel + 1) src dst data =
      data.take dst ++ ([c].filter (· ≠ 32) ++ bytes) := by
  by_cases blank : c = 32
  · have drop : decide (c = 32) = true := decide_eq_true blank
    rw [leftBy_dropped inside one drop, later dst (Nat.le_refl _) (Nat.le_succ _), List.take_set_of_le (Nat.le_refl dst),
      List.filter_cons_of_neg (by simpa using blank)]
    rfl
  · have keep : decide (c = 32) = false := decide_eq_false blank
    rw [leftBy_kept inside one keep room (later (dst + 1) (Nat.le_succ _) (Nat.le_refl _)),
      List.filter_cons_of_pos (by simpa using blank)]
    rfl

/-- The loop of `bytes_brushdown` from `src` on. -/
theorem brushdown_left (quoted : Quoted text) (ahead : data.drop src = text ++ 0 :: behind)
    (size : sz = src + text.length + 1) (fits : sz ≤ data.length) (enough : text.length + 1 ≤ fuel) (order : dst ≤ src) :
    leftBy (unquoted sz) (fun c => c = 32) sz fuel src dst data =
      data.take dst ++ ((percentDecoded text).filter (· ≠ 32) ++ [0]) := by
  induction text using escapes.induct generalizing src dst data fuel with
  | case1 high low rest ih =>
      cases fuel with
      | zero => cases enough
      | succ fuel =>
          simp only [List.length_cons] at size enough
          rcases quoted [] (high :: low :: rest) rfl with ⟨_, _, _, same, first, second⟩
          cases same
          have one : unquoted sz src dst data = (16 * (hexOf high).getD 0 + (hexOf low).getD 0, src + 3) := by
            rw [unquoted, getD_of_drop ahead, getD_of_drop (drop_succ ahead), getD_of_drop (drop_succ (drop_succ ahead)),
              if_pos ⟨rfl, by omega⟩, percent_quoted first second]
          rw [percentDecoded, ← List.singleton_append, List.filter_append, List.append_assoc]
          apply brushdown_one (by omega) one (by omega)
          intro d least most
          apply ih (quoted.later [37, high, low])
          · exact (List.drop_set_of_lt (by omega)).trans (drop_succ (drop_succ (drop_succ ahead)))
          · omega
          · rwa [List.length_set]
          · omega
          · omega
  | case2 c rest plain ih =>
      cases fuel with
      | zero => cases enough
      | succ fuel =>
          rw [List.length_cons] at size enough
          have sign : c ≠ 37 := by
            rintro rfl
            rcases quoted [] rest rfl with ⟨high, low, later, shape, -⟩
            exact plain high low later rfl shape
          have one : unquoted sz src dst data = (c, src + 1) := by
            rw [unquoted, getD_of_drop ahead, if_neg fun both => sign both.1]
          rw [percentDecoded_plain plain, ← List.singleton_append, List.filter_append, List.append_assoc]
          apply brushdown_one (by omega) one (by omega)
          intro d least most
          apply ih (quoted.later [c])
          · exact (List.drop_set_of_lt (by omega)).trans (drop_succ ahead)
          · omega
          · rwa [List.length_set]
          · omega
          · omega
  | case3 =>
      cases fuel with
      | zero => cases enough
      | succ fuel =>
          have one : unquoted sz src dst data = (0, sz) := by
            rw [unquoted, getD_of_drop ahead, if_neg fun both => absurd both.1 (by decide), size]
            rfl
          rw [List.length_nil] at size
          apply leftBy_kept (by omega) one rfl (by omega)
          rw [leftBy_end, List.append_nil]

/-- Decoding and deleting in one pass. -/
theorem brushdown_decoded (quoted : Quoted text) {x : MnBytes} (content : x.content = text ++ [0]) :
    (bytesBrushdown x).content = (percentDecoded text).filter (· ≠ 32) ++ [0] ∧
      (bytesBrushdown x).sz = ((percentDecoded text).filter (· ≠ 32)).length + 1 := by
  have whole : x.data.drop 0 = text ++ 0 :: x.data.drop x.sz := by
    have parts : x.content ++ x.data.drop x.sz = x.data := List.take_append_drop x.sz x.data
    rw [content, List.append_assoc] at parts
    exact parts.symm
  have size : x.sz = 0 + text.length + 1 := by rw [size_of_ends content, Nat.zero_add]
  have left : leftBy (unquoted x.sz) (fun c => c = 32) x.sz x.sz 0 0 x.data = _ :=
    brushdown_left quoted whole size x.fits (by omega) (Nat.le_refl 0)
  have filled : (percentDecoded text).filter (· ≠ 32) ++ [0] ≠ [] :=
    List.append_ne_nil_of_right_ne_nil _ (List.cons_ne_nil 0 [])
  have result := rewritten_content (unquoted_further x.sz) filled left
  rw [List.dropLast_concat, List.length_append] at result
  exact result.symm

/-- "%20a", which begins with an encoded blank. -/
theorem brushdown_decoded_blank :
    Quoted [37, 50, 48, 97] ∧ (bytesBrushdown ⟨1, 5, 0, [37, 50, 48, 97, 0], le_rfl⟩).content = [97, 0] ∧
      (bytesBrushdown ⟨1, 5, 0, [37, 50, 48, 97, 0], le_rfl⟩).sz = 2 := by
  have quoted : Quoted [37, 50, 48, 97] := by
    intro front rest shape
    match front with
    | [] =>
        cases shape
        exact ⟨50, 48, [97], rfl, rfl, rfl⟩
    | [_] | [_, _] | [_, _, _] => simp at shape
    | _ :: _ :: _ :: _ :: front => simp at shape
  exact ⟨quoted, brushdown_decoded quoted (x := ⟨1, 5, 0, [37, 50, 48, 97, 0], le_rfl⟩) rfl⟩

end MnCommon.ByteStrings
