import SynapseMem.Proofs.Binary64.Quotients

/-!
# The nearest double

`IsNearest x r` says, without a word on how it is found, that `x` is the double nearest to the
rational `r`, a half going to the even neighbour. A rounded quotient is nearest to its quotient,
unless it overflows (`isNearest_ofRatio`), and the nearest double is on the same side of every other
double as the rational (`IsNearest.le`, `IsNearest.ge`).

Around a quotient the doubles are the multiples of one spacing (`nearer_spacings`). Further down
they are closer together, but then the least multiple with 53 binary digits is nearer than any of
them (`nearer_of_representable`).
-/

namespace SynapseMem

/-! ### Distances from a rational -/

section Nearer

variable {tie : Prop} {r u v w k : ℚ}

/-- Of two candidates for a rational the first is at least as near, and as near as a different one
only if `tie` holds. -/
def Nearer (tie : Prop) (r u v : ℚ) : Prop := |r - u| ≤ |r - v| ∧ (|r - u| = |r - v| → v = u ∨ tie)

theorem Nearer.trans_lt (h : Nearer tie r u v) (hlt : |r - v| < |r - w|) : Nearer tie r u w :=
  ⟨(h.1.trans_lt hlt).le, fun heq => absurd heq (h.1.trans_lt hlt).ne⟩

/-- A change of the unit or of the sign changes nothing. -/
theorem nearer_mul_iff (hk : k ≠ 0) : Nearer tie (r * k) (u * k) (v * k) ↔ Nearer tie r u v := by
  simp only [Nearer, ← sub_mul, abs_mul, mul_le_mul_iff_left₀ (abs_pos.2 hk),
    mul_left_inj' (abs_ne_zero.2 hk), mul_left_inj' hk]

theorem IsNearestEven.nearer {x : ℚ} {n : ℤ} (h : IsNearestEven x n) (m : ℤ) :
    Nearer (Even n) x n m := by
  by_cases hm : m = n
  · rw [hm]
    exact ⟨le_rfl, fun _ => .inl rfl⟩
  · have hone : (1 : ℚ) ≤ |(m : ℚ) - n| := by
      exact_mod_cast Int.one_le_abs (sub_ne_zero.2 hm)
    have htriangle : |(m : ℚ) - n| ≤ |x - n| + |x - m| := by
      rw [show (m : ℚ) - n = x - n - (x - m) by ring]
      exact abs_sub _ _
    have hhalf := h.1
    exact ⟨by linarith, fun heq => .inr (h.2 (le_antisymm hhalf (by linarith)))⟩

end Nearer

namespace Binary64

/-- The double nearest to a rational. If there are two, it is the one with an even last digit. -/
def IsNearest (x : Binary64) (r : ℚ) : Prop :=
  x.isFinite = true ∧ ∀ y : Binary64, y.isFinite = true →
    Nearer (Even x.magnitude) r x.toRat y.toRat

section Order

variable {x y : Binary64} {r : ℚ}

/-- A double that is not above the rational is not above the nearest one. -/
theorem IsNearest.le (h : IsNearest x r) (hy : y.isFinite = true) (hle : y.toRat ≤ r) :
    y.toRat ≤ x.toRat := by
  by_contra hlt
  rw [not_le] at hlt
  have hdist := (h.2 y hy).1
  rw [abs_of_nonneg (sub_nonneg.2 hle), abs_of_nonneg (by linarith)] at hdist
  linarith

theorem IsNearest.ge (h : IsNearest x r) (hy : y.isFinite = true) (hge : r ≤ y.toRat) :
    x.toRat ≤ y.toRat := by
  by_contra hlt
  rw [not_le] at hlt
  have hdist := (h.2 y hy).1
  rw [abs_of_nonpos (sub_nonpos.2 hge), abs_of_nonpos (by linarith)] at hdist
  linarith

end Order

/-! ### Rounded quotients in units -/

section Units

variable {num den : ℕ}

/-- A quotient in units. -/
def unitsOfQuotient (num den : ℕ) : ℚ := num * unitsPerOne / den

/-- The rounded quotient in units. -/
def roundedUnits (num den : ℕ) : ℕ := spacingsOf num den * 2 ^ spacingOf num den

theorem magnitude_ofQuotient (s : Bool) (h : (ofQuotient s num den).isFinite = true) :
    (ofQuotient s num den).magnitude = spacingOf num den * 2 ^ 52 + spacingsOf num den := by
  have hle := nearestMagnitude_le num den
  rw [ofQuotient, isFinite_ofMagnitude s hle, decide_eq_true_eq, nearestMagnitude_eq] at h
  rw [ofQuotient, magnitude_ofMagnitude s hle, nearestMagnitude_eq]
  exact Nat.min_eq_left (not_lt.1 fun hlt => h.ne (Nat.min_eq_right hlt.le))

/-- A count that has reached `2 ^ 53` spacings is half as many of the next spacing. -/
theorem units_ofQuotient_of_isFinite (s : Bool) (h : (ofQuotient s num den).isFinite = true) :
    (ofQuotient s num den).units = roundedUnits num den := by
  rw [units, magnitude_ofQuotient s h, roundedUnits]
  rcases (spacingsOf_le num den).lt_or_eq with hlt | heq
  · refine Normal.unitsOfMagnitude ⟨hlt, ?_⟩
    rcases Nat.eq_zero_or_pos (spacingOf num den) with hzero | hpos
    · exact .inr hzero
    · exact .inl (le_spacingsOf hpos)
  · have hnormal : Normal (2 ^ 52) (spacingOf num den + 1) := ⟨by norm_num, .inl le_rfl⟩
    rw [heq,
      show spacingOf num den * 2 ^ 52 + 2 ^ 53 = (spacingOf num den + 1) * 2 ^ 52 + 2 ^ 52 by ring,
      hnormal.unitsOfMagnitude, pow_succ]
    ring

/-- No other count of spacings is nearer. -/
theorem nearer_spacings (num : ℕ) (hden : 0 < den) (k : ℕ) :
    Nearer (Even (spacingsOf num den)) (unitsOfQuotient num den) (roundedUnits num den)
      (k * 2 ^ spacingOf num den : ℕ) := by
  have hpos : (2 : ℚ) ^ spacingOf num den ≠ 0 := by positivity
  have hnearest : IsNearestEven (((num * unitsPerOne : ℕ) : ℚ) / (den * 2 ^ spacingOf num den : ℕ))
      (spacingsOf num den : ℤ) := by
    rw [← roundHalfEven_eq_iff, spacingsOf,
      roundHalfEven_natCast_div _ (Nat.mul_pos hden (Nat.two_pow_pos _))]
  have hnearer := (nearer_mul_iff hpos).2 (hnearest.nearer k)
  rw [Int.even_coe_nat] at hnearer
  push_cast [← div_div, div_mul_cancel₀ _ hpos] at hnearer
  push_cast [roundedUnits]
  exact hnearer

/-- No other double is nearer, as units. -/
theorem nearer_of_representable (hden : 0 < den) {u : ℕ} (hu : Representable u) :
    Nearer (Even (spacingsOf num den)) (unitsOfQuotient num den) (roundedUnits num den) u := by
  rcases hu.dvd_or_lt_two_pow (spacingOf num den) with ⟨k, rfl⟩ | hlt
  · rw [mul_comm]
    exact nearer_spacings num hden k
  · rcases Nat.eq_zero_or_pos (spacingOf num den) with hzero | hpos
    · have hnearer := nearer_spacings num hden u
      rwa [hzero, pow_zero, mul_one] at hnearer
    · -- the double is below the least full count of spacings, which is not above the quotient
      have hfull : ((2 ^ 52 * 2 ^ spacingOf num den : ℕ) : ℚ) ≤ unitsOfQuotient num den := by
        have hfloor := le_div_of_spacingOf_pos hpos
        rw [Nat.le_div_iff_mul_le (Nat.mul_pos hden (Nat.two_pow_pos _))] at hfloor
        rw [unitsOfQuotient, le_div_iff₀ (by exact_mod_cast hden)]
        calc ((2 ^ 52 * 2 ^ spacingOf num den : ℕ) : ℚ) * den
            = (2 ^ 52 * (den * 2 ^ spacingOf num den) : ℕ) := by
              push_cast
              ring
          _ ≤ (num * unitsPerOne : ℕ) := by exact_mod_cast hfloor
          _ = num * unitsPerOne := by push_cast; rfl
      have hbelow : (u : ℚ) < (2 ^ 52 * 2 ^ spacingOf num den : ℕ) := by exact_mod_cast hlt
      refine (nearer_spacings num hden (2 ^ 52)).trans_lt ?_
      rw [abs_of_nonneg (by linarith), abs_of_nonneg (by linarith)]
      linarith

/-- No double of either sign is nearer. -/
theorem nearer_of_signed (hden : 0 < den) {t : ℤ} (ht : Representable t.natAbs) :
    Nearer (Even (spacingsOf num den)) (unitsOfQuotient num den) (roundedUnits num den) t := by
  rcases le_or_gt 0 t with hnonneg | hneg
  · lift t to ℕ using hnonneg
    exact nearer_of_representable hden ht
  · -- zero is nearer than a double on the other side
    have hquot : 0 ≤ unitsOfQuotient num den :=
      div_nonneg (mul_nonneg (Nat.cast_nonneg _) (Nat.cast_nonneg _)) (Nat.cast_nonneg _)
    have hcast : (t : ℚ) < 0 := by exact_mod_cast hneg
    refine (nearer_of_representable hden (u := 0) ⟨0, 0, by norm_num, by norm_num⟩).trans_lt ?_
    rw [Nat.cast_zero, sub_zero, abs_of_nonneg hquot, abs_of_nonneg (by linarith)]
    linarith

end Units

theorem natAbs_signedUnits (x : Binary64) : x.signedUnits.natAbs = x.units := by
  unfold signedUnits
  split_ifs <;> omega

/-- A rounded quotient that does not overflow is the nearest double. -/
theorem isNearest_ofRatio {z : ℤ} {den : ℕ} (hden : 0 < den) (h : (ofRatio z den).isFinite = true) :
    IsNearest (ofRatio z den) (z / den) := by
  refine ⟨h, fun y _ => ?_⟩
  have hunits : (ofRatio z den).units = roundedUnits z.natAbs den :=
    units_ofQuotient_of_isFinite _ h
  have hmagnitude : (ofRatio z den).magnitude =
      spacingOf z.natAbs den * 2 ^ 52 + spacingsOf z.natAbs den :=
    magnitude_ofQuotient _ h
  have heven : Even (ofRatio z den).magnitude ↔ Even (spacingsOf z.natAbs den) := by
    rw [hmagnitude, Nat.even_add, iff_true_left ((show Even (2 ^ 52) by norm_num).mul_left _)]
  -- the sign is divided out, and the distances are counted in units
  obtain ⟨sign, hsign, hz, hx⟩ : ∃ sign : ℤ, sign.natAbs = 1 ∧ z = z.natAbs * sign ∧
      (ofRatio z den).signedUnits = roundedUnits z.natAbs den * sign := by
    rw [signedUnits, negative_ofRatio, hunits]
    by_cases hneg : z < 0
    · exact ⟨-1, by norm_num, by omega, by simp [hneg]⟩
    · exact ⟨1, by norm_num, by omega, by simp [hneg]⟩
  have hrep : Representable (y.signedUnits * sign).natAbs := by
    rw [Int.natAbs_mul, hsign, mul_one, natAbs_signedUnits]
    exact representable_units y
  have hsquare : (sign : ℚ) * sign = 1 := by
    rcases Int.natAbs_eq_iff.1 hsign with rfl | rfl <;> norm_num
  have hone : (unitsPerOne : ℚ) ≠ 0 := by exact_mod_cast unitsPerOne_pos.ne'
  have hscale : (sign : ℚ) / unitsPerOne ≠ 0 :=
    div_ne_zero (left_ne_zero_of_mul (hsquare ▸ one_ne_zero)) hone
  have hquot : (z / den : ℚ) = unitsOfQuotient z.natAbs den * (sign / unitsPerOne) := by
    have hcast : (z : ℚ) = z.natAbs * sign := by
      rw [← Int.cast_natCast z.natAbs, ← Int.cast_mul, ← hz]
    rw [hcast, unitsOfQuotient, div_mul_div_comm, mul_right_comm, mul_div_mul_right _ _ hone]
  have hxrat : (ofRatio z den).toRat = roundedUnits z.natAbs den * (sign / unitsPerOne) := by
    rw [toRat, hx]
    push_cast
    rw [mul_div_assoc]
  have hyrat : y.toRat = (y.signedUnits * sign : ℤ) * (sign / unitsPerOne) := by
    rw [toRat]
    push_cast
    rw [mul_assoc, ← mul_div_assoc (sign : ℚ), hsquare, mul_one_div]
  rw [hquot, hxrat, hyrat, nearer_mul_iff hscale, heven]
  exact nearer_of_signed hden hrep

end Binary64

end SynapseMem
