import SynapseMem.Proofs.Binary64.Nearest

/-!
# Binary fractions as doubles

The double nearest to `z / 2 ^ j` is zero only if `z` is, so that it has the sign of its units.
Therefore the rounded fractions of one denominator are in the order of their numerators, and the
lesser and the greater of two are those of the lesser and the greater numerator (`min_ofRatio`,
`max_ofRatio`), even where numerators are rounded to one double. Dividing by a power of two comes to
the same before and after rounding (`div_ofInt_two_pow`), and a list of fractions is added up
exactly as long as the numerators cannot pass `2 ^ 53` (`foldl_add_ofRatio`).
-/

namespace SynapseMem.Binary64

/-! ### Equal doubles -/

section Equal

variable {x y : Binary64}

theorem eq_of_units (hsign : x.negative = y.negative) (hunits : x.units = y.units) : x = y := by
  have hmagnitude : x.magnitude = y.magnitude := unitsOfMagnitude_strictMono.injective hunits
  have hx := x.bits.toNat_lt
  have hy := y.bits.toNat_lt
  have hbits : x.bits.toNat = y.bits.toNat := by
    rw [negative, negative, decide_eq_decide, signWeight] at hsign
    rw [magnitude, magnitude, signWeight] at hmagnitude
    omega
  rcases x with ⟨xbits⟩
  rcases y with ⟨ybits⟩
  rw [mk.injEq]
  exact UInt64.toNat_inj.1 hbits

/-- Apart from the negative zero, doubles are equal when their units are. -/
theorem eq_of_signedUnits (hx : x.negative = decide (x.signedUnits < 0))
    (hy : y.negative = decide (y.signedUnits < 0)) (h : x.signedUnits = y.signedUnits) : x = y := by
  refine eq_of_units (by rw [hx, hy, h]) ?_
  rw [← natAbs_signedUnits, ← natAbs_signedUnits, h]

end Equal

/-! ### Order -/

section Order

variable {z z' : ℤ} {den j : ℕ}

theorem isNaN_ofRatio (z : ℤ) (den : ℕ) : (ofRatio z den).isNaN = false := isNaN_ofQuotient _ _ _

/-- Rounded fractions of one denominator are in the order of the numerators. -/
theorem signedUnits_ofRatio_mono (hden : 0 < den) (h : z ≤ z') :
    (ofRatio z den).signedUnits ≤ (ofRatio z' den).signedUnits := by
  have hup : z.natAbs ≤ z'.natAbs → (ofRatio z den).units ≤ (ofRatio z' den).units :=
    fun hle => units_ofQuotient_mono _ _ hden hden (Nat.mul_le_mul_right _ hle)
  have hdown : z'.natAbs ≤ z.natAbs → (ofRatio z' den).units ≤ (ofRatio z den).units :=
    fun hle => units_ofQuotient_mono _ _ hden hden (Nat.mul_le_mul_right _ hle)
  simp only [signedUnits, negative_ofRatio, decide_eq_true_eq]
  split_ifs <;> omega

/-- A fraction other than zero is not rounded to zero. -/
theorem units_ofRatio_pos (hj : j ≤ 1074) (hz : z ≠ 0) : 0 < (ofRatio z (2 ^ j)).units := by
  have hone := (exact_ofQuotient_two_pow (decide (z < 0)) (k := 1) (by norm_num) hj).2
  have hpos : 0 < (ofQuotient (decide (z < 0)) 1 (2 ^ j)).units := by
    refine Nat.pos_of_ne_zero fun hzero => unitsPerOne_pos.ne' ?_
    rw [← Nat.one_mul unitsPerOne, ← hone, hzero, Nat.zero_mul]
  exact hpos.trans_le
    (units_ofQuotient_mono _ _ (by positivity) (by positivity) (Nat.mul_le_mul_right _ (by omega)))

theorem negative_ofRatio_eq (hj : j ≤ 1074) :
    (ofRatio z (2 ^ j)).negative = decide ((ofRatio z (2 ^ j)).signedUnits < 0) := by
  rw [negative_ofRatio, decide_eq_decide, signedUnits, negative_ofRatio]
  by_cases hneg : z < 0
  · have hpos := units_ofRatio_pos hj hneg.ne
    rw [decide_eq_true hneg, if_pos rfl]
    omega
  · rw [decide_eq_false hneg, if_neg Bool.false_ne_true]
    omega

/-- Of two rounded fractions one is the lesser, or they are one double. -/
theorem lt_or_eq_ofRatio (hj : j ≤ 1074) (h : z ≤ z') :
    (ofRatio z (2 ^ j)).lt (ofRatio z' (2 ^ j)) = true ∨
      ofRatio z (2 ^ j) = ofRatio z' (2 ^ j) := by
  rw [lt_iff (isNaN_ofRatio _ _) (isNaN_ofRatio _ _)]
  rcases (signedUnits_ofRatio_mono (Nat.two_pow_pos j) h).lt_or_eq with hlt | heq
  · exact .inl hlt
  · exact .inr (eq_of_signedUnits (negative_ofRatio_eq hj) (negative_ofRatio_eq hj) heq)

theorem not_lt_ofRatio (h : z ≤ z') : (ofRatio z' (2 ^ j)).lt (ofRatio z (2 ^ j)) = false := by
  rw [← Bool.not_eq_true, lt_iff (isNaN_ofRatio _ _) (isNaN_ofRatio _ _), not_lt]
  exact signedUnits_ofRatio_mono (by positivity) h

theorem min_ofRatio (hj : j ≤ 1074) (z z' : ℤ) :
    min (ofRatio z (2 ^ j)) (ofRatio z' (2 ^ j)) = ofRatio (Min.min z z') (2 ^ j) := by
  rw [min, isNaN_ofRatio, Bool.false_or]
  rcases le_total z z' with hle | hle
  · rw [not_lt_ofRatio hle, if_neg Bool.false_ne_true, min_eq_left hle]
  · rw [min_eq_right hle]
    rcases lt_or_eq_ofRatio hj hle with hlt | heq
    · rw [if_pos hlt]
    · rw [heq, ite_self]

theorem max_ofRatio (hj : j ≤ 1074) (z z' : ℤ) :
    max (ofRatio z (2 ^ j)) (ofRatio z' (2 ^ j)) = ofRatio (Max.max z z') (2 ^ j) := by
  rw [max, isNaN_ofRatio, Bool.false_or]
  rcases le_total z z' with hle | hle
  · rw [max_eq_right hle]
    rcases lt_or_eq_ofRatio hj hle with hlt | heq
    · rw [if_pos hlt]
    · rw [heq, ite_self]
  · rw [not_lt_ofRatio hle, if_neg Bool.false_ne_true, max_eq_left hle]

end Order

/-! ### Infinities -/

section Infinities

variable {x : Binary64}

theorem isNaN_infinity (s : Bool) : (infinity s).isNaN = false := by
  cases s <;> decide

/-- The infinities are beyond the finite numbers. -/
theorem natAbs_signedUnits_lt_infinity (hx : x.isFinite = true) (s : Bool) :
    x.signedUnits.natAbs < (infinity s).signedUnits.natAbs := by
  have hinfinity : ¬ (infinity s).isFinite = true := by
    cases s <;> decide
  rw [← units_lt_iff, not_lt] at hinfinity
  rw [natAbs_signedUnits, natAbs_signedUnits]
  exact (units_lt_iff.2 hx).trans_le hinfinity

theorem min_infinity (hx : x.isFinite = true) : min (infinity false) x = x := by
  have hlt := natAbs_signedUnits_lt_infinity hx false
  have hsign : 0 ≤ (infinity false).signedUnits := by
    rw [signedUnits, infinity, negative_ofMagnitude false le_rfl]
    exact Int.natCast_nonneg _
  rw [min, isNaN_infinity, Bool.false_or, if_pos]
  rw [lt_iff (isNaN_of_isFinite hx) (isNaN_infinity false)]
  omega

theorem max_infinity (hx : x.isFinite = true) : max (infinity true) x = x := by
  have hlt := natAbs_signedUnits_lt_infinity hx true
  have hsign : (infinity true).signedUnits ≤ 0 := by
    rw [signedUnits, infinity, negative_ofMagnitude true le_rfl, if_pos rfl]
    exact Int.neg_nonpos_of_nonneg (Int.natCast_nonneg _)
  rw [max, isNaN_infinity, Bool.false_or, if_pos]
  rw [lt_iff (isNaN_infinity true) (isNaN_of_isFinite hx)]
  omega

/-- Choosing from rounded fractions one after the other is choosing from the numerators. -/
theorem foldl_ofRatio {pick : Binary64 → Binary64 → Binary64} {choose : ℤ → ℤ → ℤ}
    {start : Binary64} {den : ℕ}
    (hpick : ∀ z z', pick (ofRatio z den) (ofRatio z' den) = ofRatio (choose z z') den) {z : ℤ}
    (hstart : pick start (ofRatio z den) = ofRatio z den) (zs : List ℤ) :
    ((z :: zs).map fun z => ofRatio z den).foldl pick start = ofRatio (zs.foldl choose z) den := by
  rw [List.map_cons, List.foldl_cons, hstart, List.foldl_map]
  exact List.foldl_hom (fun z => ofRatio z den) hpick

end Infinities

/-! ### Division by a power of two -/

section Division

variable {n k : ℕ} {z : ℤ}

/-- A quotient up to a power of two that is a double does not overflow. -/
theorem isFinite_ofRatio_of_le {den : ℕ} (hden : 0 < den) (hk : k < 1024)
    (hz : z.natAbs ≤ 2 ^ k * den) : (ofRatio z den).isFinite = true := by
  rw [← units_lt_iff]
  calc (ofRatio z den).units ≤ (ofNat (2 ^ k)).units :=
        units_ofQuotient_mono _ _ hden one_pos (by rwa [mul_one])
    _ = 2 ^ k * unitsPerOne := units_ofNat_two_pow hk
    _ < 2 ^ 2098 := two_pow_units_lt hk

/-- Dividing by a power of two takes as much from the exponent. -/
theorem spacingOf_two_pow (hn : n ≠ 0) (hk : k ≤ 1022) :
    spacingOf n (2 ^ k) + k = spacingOf n 1 := by
  have hquot : n * unitsPerOne / 2 ^ k = n * 2 ^ (1074 - k) := by
    rw [unitsPerOne_eq, two_pow_eq_mul (show 1074 - k + k = 1074 by omega), ← mul_assoc,
      Nat.mul_div_cancel _ (Nat.two_pow_pos k)]
  have hlog : ∀ s, Nat.log2 (n * 2 ^ s) = Nat.log2 n + s :=
    log2_mul_two_pow (Nat.log2_self_le hn) Nat.lt_log2_self
  rw [spacingOf, spacingOf, hquot, hlog, Nat.div_one, unitsPerOne_eq, hlog]
  omega

theorem roundedUnits_two_pow (n : ℕ) (hk : k ≤ 1022) :
    roundedUnits n (2 ^ k) * 2 ^ k = roundedUnits n 1 := by
  by_cases hn : n = 0
  · simp [hn, roundedUnits, spacingsOf, roundDiv]
  · have hspacing := spacingOf_two_pow hn hk
    have hcount : spacingsOf n (2 ^ k) = spacingsOf n 1 := by
      rw [spacingsOf, spacingsOf, one_mul, ← pow_add, add_comm k, hspacing]
    rw [roundedUnits, roundedUnits, hcount, mul_assoc, ← pow_add, hspacing]

/-- An integer may be rounded before it is divided by a power of two or after. -/
theorem div_ofInt_two_pow (hz : z.natAbs ≤ 2 ^ 64) (hk : k ≤ 1022) :
    (ofInt z).div (ofNat (2 ^ k)) = ofRatio z (2 ^ k) := by
  have hwhole : (ofInt z).isFinite = true :=
    isFinite_ofRatio_of_le (k := 64) one_pos (by norm_num) (by rwa [mul_one])
  have hfinite : (ofRatio z (2 ^ k)).isFinite = true :=
    isFinite_ofRatio_of_le (k := 64) (by positivity) (by norm_num)
      (hz.trans (Nat.le_mul_of_pos_right _ (Nat.two_pow_pos k)))
  have hunits : (ofInt z).units = (ofRatio z (2 ^ k)).units * 2 ^ k :=
    calc (ofInt z).units = roundedUnits z.natAbs 1 := units_ofQuotient_of_isFinite _ hwhole
      _ = roundedUnits z.natAbs (2 ^ k) * 2 ^ k := (roundedUnits_two_pow _ hk).symm
      _ = (ofRatio z (2 ^ k)).units * 2 ^ k := by
        rw [ofRatio, units_ofQuotient_of_isFinite _ hfinite]
  have hexact : (ofRatio z (2 ^ k)).units * 2 ^ k * unitsPerOne =
      2 ^ k * unitsPerOne * (ofRatio z (2 ^ k)).units := by ring
  rw [div_ofNat_two_pow hwhole (by omega), hunits]
  refine eq_of_units (by rw [negative_ofQuotient, negative_ofInt, negative_ofRatio]) ?_
  exact units_ofQuotient _ (representable_units _) (Nat.mul_pos (Nat.two_pow_pos k) unitsPerOne_pos)
    hexact (units_lt_iff.2 hfinite)

end Division

/-! ### Sums -/

section Sums

variable {zs : List ℤ} {bound j : ℕ}

theorem natAbs_sum_le (hzs : ∀ z ∈ zs, z.natAbs ≤ bound) : zs.sum.natAbs ≤ zs.length * bound := by
  induction zs with
  | nil => simp
  | cons z zs ih =>
    rw [List.forall_mem_cons] at hzs
    have hrest := ih hzs.2
    rw [List.sum_cons, List.length_cons, Nat.succ_mul]
    omega

/-- Fractions are added up exactly as long as the numerators leave room for those that follow. -/
theorem foldl_add_ofRatio (hj : j ≤ 1074) (hzs : ∀ z ∈ zs, z.natAbs ≤ bound) {a : ℤ}
    (ha : a.natAbs + zs.length * bound ≤ 2 ^ 53) :
    (zs.map fun z => ofRatio z (2 ^ j)).foldl add (ofRatio a (2 ^ j)) =
      ofRatio (a + zs.sum) (2 ^ j) := by
  induction zs generalizing a with
  | nil => simp
  | cons z zs ih =>
    rw [List.forall_mem_cons] at hzs
    rw [List.length_cons, Nat.succ_mul] at ha
    rw [List.map_cons, List.foldl_cons, add_ofRatio (by omega) (by omega) hj, ih hzs.2 (by omega),
      List.sum_cons, add_assoc]

end Sums

end SynapseMem.Binary64
