import MnCommon.Grammars.Unique

/-! The characters of a text, where one behind a backslash counts together with it. -/

namespace MnCommon.Grammars

variable {c : UInt8} {body ws : List UInt8}

def units : List UInt8 → Nat
  | [] => 0
  | [_] => 1
  | c :: d :: rest => if c = 92 then units rest + 1 else units (d :: rest) + 1

theorem units_cons (slash : c ≠ 92) (rest : List UInt8) : units (c :: rest) = units rest + 1 := by
  cases rest with
  | nil => rfl
  | cons d rest => rw [units, if_neg slash]

theorem units_escape (c : UInt8) (rest : List UInt8) : units (92 :: c :: rest) = units rest + 1 := by
  rw [units, if_pos rfl]

/-- A character more is one unit more at most, and it takes none away. -/
theorem units_cons_bounds (c : UInt8) (rest : List UInt8) :
    units rest ≤ units (c :: rest) ∧ units (c :: rest) ≤ units rest + 1 := by
  induction rest generalizing c with
  | nil => exact ⟨Nat.zero_le _, Nat.le_refl _⟩
  | cons d rest ih =>
      by_cases slash : c = 92
      · subst slash
        have bounds := ih d
        rw [units_escape]
        omega
      · rw [units_cons slash]
        omega

theorem units_append_le (a b : List UInt8) : units (a ++ b) ≤ units a + units b := by
  induction a using units.induct with
  | case1 => exact Nat.le_add_left ..
  | case2 c =>
      have bounds := units_cons_bounds c b
      change units (c :: b) ≤ 1 + units b
      omega
  | case3 d rest ih =>
      change units (92 :: d :: (rest ++ b)) ≤ _
      rw [units_escape, units_escape]
      omega
  | case4 c d rest slash ih =>
      change units (c :: (d :: rest ++ b)) ≤ _
      rw [units_cons slash, units_cons slash]
      omega

/-- A prefix has no more units. -/
theorem units_le_append (a b : List UInt8) : units a ≤ units (a ++ b) := by
  induction a using units.induct with
  | case1 => exact Nat.zero_le _
  | case2 c =>
      cases b with
      | nil => exact Nat.le_refl _
      | cons d b =>
          change 1 ≤ units (c :: d :: b)
          rw [units]
          split_ifs <;> exact Nat.le_add_left ..
  | case3 d rest ih =>
      change _ ≤ units (92 :: d :: (rest ++ b))
      rw [units_escape, units_escape]
      omega
  | case4 c d rest slash ih =>
      change _ ≤ units (c :: (d :: rest ++ b))
      rw [units_cons slash, units_cons slash]
      omega

theorem units_append_ge (a b : List UInt8) : units b ≤ units (a ++ b) := by
  induction a with
  | nil => exact Nat.le_refl _
  | cons c a ih => exact Nat.le_trans ih (units_cons_bounds c (a ++ b)).1

theorem units_dropLast_le (a : List UInt8) : units a.dropLast ≤ units a := by
  rcases List.eq_nil_or_concat a with rfl | ⟨front, c, rfl⟩
  · exact Nat.le_refl _
  · rw [List.concat_eq_append, List.dropLast_concat]
    exact units_le_append front [c]

theorem Closed.units_append (closed : Closed body) (rest : List UInt8) : units (body ++ rest) = units body + units rest := by
  induction closed with
  | nil => exact (Nat.zero_add _).symm
  | char _ slash _ ih =>
      rw [List.cons_append, units_cons slash, units_cons slash, ih]
      omega
  | escape c _ ih =>
      rw [List.cons_append, List.cons_append, units_escape, units_escape, ih]
      omega

end MnCommon.Grammars
