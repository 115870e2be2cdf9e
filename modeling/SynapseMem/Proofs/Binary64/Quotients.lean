import SynapseMem.Proofs.Binary64.Exactness
import SynapseMem.Proofs.Fixed.HalfEven

/-!
# Rounded quotients

Rounding a quotient to the nearest double depends on the value of the quotient alone
(`ofQuotient_congr`) and keeps the order of quotients (`nearestMagnitude_mono`), which is also that
of the counts of units (`unitsOfMagnitude_strictMono`). Binary fractions of at most 53 digits are
doubles (`exact_ofQuotient_two_pow`), so their sums and their quotients by whole numbers are rounded
once (`add_ofRatio`, `div_ofRatio`). No quotient by a whole number of few digits is rounded onto or
past a short binary fraction that it does not reach (`le_units_ofQuotient_iff`).
-/

namespace SynapseMem

/-- A greater quotient does not round to a lesser whole number. -/
theorem roundDiv_mono {n d n' d' : ℕ} (hd : 0 < d) (hd' : 0 < d') (h : n * d' ≤ n' * d) :
    roundDiv n d ≤ roundDiv n' d' := by
  have hquot : (n : ℚ) / d ≤ (n' : ℚ) / d' := by
    rw [div_le_div_iff₀ (by exact_mod_cast hd) (by exact_mod_cast hd')]
    exact_mod_cast h
  have hround := roundHalfEven_mono hquot
  rw [roundHalfEven_natCast_div n hd, roundHalfEven_natCast_div n' hd'] at hround
  exact_mod_cast hround

namespace Binary64

/-! ### The value of a quotient -/

theorem nearestMagnitude_mul_right (num den : ℕ) {k : ℕ} (hk : 0 < k) :
    nearestMagnitude (num * k) (den * k) = nearestMagnitude num den := by
  have hscaled : num * k * unitsPerOne = num * unitsPerOne * k := Nat.mul_right_comm _ _ _
  simp only [nearestMagnitude, hscaled, Nat.mul_div_mul_right _ _ hk, Nat.mul_right_comm den k,
    roundDiv_mul_mul_right _ _ hk]

theorem ofQuotient_mul_right (s : Bool) (num den : ℕ) {k : ℕ} (hk : 0 < k) :
    ofQuotient s (num * k) (den * k) = ofQuotient s num den := by
  rw [ofQuotient, nearestMagnitude_mul_right num den hk, ofQuotient]

theorem ofQuotient_congr (s : Bool) {num den num' den' : ℕ} (hden : 0 < den) (hden' : 0 < den')
    (h : num * den' = num' * den) : ofQuotient s num den = ofQuotient s num' den' := by
  rw [← ofQuotient_mul_right s num den hden', h, mul_comm den,
    ofQuotient_mul_right s num' den' hden]

/-! ### Order -/

section Order

variable {num den : ℕ}

/-- The exponent of the spacing of the doubles around a quotient. -/
def spacingOf (num den : ℕ) : ℕ := Nat.log2 (num * unitsPerOne / den) - 52

/-- The number of spacings in a quotient. -/
def spacingsOf (num den : ℕ) : ℕ := roundDiv (num * unitsPerOne) (den * 2 ^ spacingOf num den)

theorem nearestMagnitude_eq (num den : ℕ) :
    nearestMagnitude num den =
      Nat.min (spacingOf num den * 2 ^ 52 + spacingsOf num den) infinityMagnitude := by
  simp only [nearestMagnitude, fractionCount_eq]
  rfl

/-- At most one spacing too many is counted. -/
theorem spacingsOf_le (num den : ℕ) : spacingsOf num den ≤ 2 ^ 53 := by
  have hquot : num * unitsPerOne / den < 2 ^ (53 + spacingOf num den) := by
    by_cases hzero : num * unitsPerOne / den = 0
    · rw [hzero]
      positivity
    · rw [← Nat.log2_lt hzero, spacingOf]
      omega
  have hfloor : num * unitsPerOne / (den * 2 ^ spacingOf num den) < 2 ^ 53 := by
    rw [← Nat.div_div_eq_div_mul, Nat.div_lt_iff_lt_mul (Nat.two_pow_pos _), ← pow_add]
    exact hquot
  have hround := roundDiv_le (num * unitsPerOne) (den * 2 ^ spacingOf num den)
  rw [spacingsOf]
  omega

/-- Above the least spacing, a quotient is `2 ^ 52` spacings or more. -/
theorem le_div_of_spacingOf_pos (hspacing : 0 < spacingOf num den) :
    2 ^ 52 ≤ num * unitsPerOne / (den * 2 ^ spacingOf num den) := by
  have hlog : Nat.log2 (num * unitsPerOne / den) = 52 + spacingOf num den := by
    rw [spacingOf] at hspacing ⊢
    omega
  have hzero : num * unitsPerOne / den ≠ 0 := by
    intro hzero
    rw [hzero, Nat.log2_zero] at hlog
    omega
  rw [← Nat.div_div_eq_div_mul, Nat.le_div_iff_mul_le (Nat.two_pow_pos _), ← pow_add, ← hlog]
  exact Nat.log2_self_le hzero

/-- The spacing is the least one, or the count of spacings has 53 binary digits. -/
theorem le_spacingsOf (hspacing : 0 < spacingOf num den) : 2 ^ 52 ≤ spacingsOf num den :=
  (le_div_of_spacingOf_pos hspacing).trans (div_le_roundDiv _ _)

variable {num' den' : ℕ}

theorem spacingOf_mono (hden : 0 < den) (hden' : 0 < den') (h : num * den' ≤ num' * den) :
    spacingOf num den ≤ spacingOf num' den' := by
  have hquot : num * unitsPerOne / den ≤ num' * unitsPerOne / den' := by
    rw [Nat.le_div_iff_mul_le hden']
    refine Nat.le_of_mul_le_mul_right ?_ hden
    calc num * unitsPerOne / den * den' * den = num * unitsPerOne / den * den * den' :=
          Nat.mul_right_comm _ _ _
      _ ≤ num * unitsPerOne * den' := Nat.mul_le_mul_right _ (Nat.div_mul_le_self _ _)
      _ = num * den' * unitsPerOne := Nat.mul_right_comm _ _ _
      _ ≤ num' * den * unitsPerOne := Nat.mul_le_mul_right _ h
      _ = num' * unitsPerOne * den := Nat.mul_right_comm _ _ _
  have hlog : Nat.log2 (num * unitsPerOne / den) ≤ Nat.log2 (num' * unitsPerOne / den') := by
    rw [Nat.log2_eq_log_two, Nat.log2_eq_log_two]
    exact Nat.log_mono_right hquot
  rw [spacingOf, spacingOf]
  omega

/-- Rounding keeps the order of quotients. -/
theorem nearestMagnitude_mono (hden : 0 < den) (hden' : 0 < den') (h : num * den' ≤ num' * den) :
    nearestMagnitude num den ≤ nearestMagnitude num' den' := by
  rw [nearestMagnitude_eq, nearestMagnitude_eq]
  refine min_le_min_right _ ?_
  rcases (spacingOf_mono hden hden' h).eq_or_lt with heq | hlt
  · -- with one spacing the counts are in order
    have hcounts : spacingsOf num den ≤ spacingsOf num' den' := by
      rw [spacingsOf, spacingsOf, heq]
      refine roundDiv_mono (Nat.mul_pos hden (Nat.two_pow_pos _))
        (Nat.mul_pos hden' (Nat.two_pow_pos _)) ?_
      calc num * unitsPerOne * (den' * 2 ^ spacingOf num' den')
          = num * den' * (unitsPerOne * 2 ^ spacingOf num' den') := by ring
        _ ≤ num' * den * (unitsPerOne * 2 ^ spacingOf num' den') := Nat.mul_le_mul_right _ h
        _ = num' * unitsPerOne * (den * 2 ^ spacingOf num' den') := by ring
    omega
  · -- a greater spacing starts where the lesser one ends
    have hle : spacingsOf num den ≤ 2 ^ 53 := spacingsOf_le num den
    have hge : 2 ^ 52 ≤ spacingsOf num' den' := le_spacingsOf (by omega)
    omega

/-- Magnitudes are in the order of their units. -/
theorem unitsOfMagnitude_strictMono : StrictMono unitsOfMagnitude := by
  intro m m' hlt
  obtain ⟨c, s, hn, rfl⟩ := exists_normal_magnitude m
  obtain ⟨c', s', hn', rfl⟩ := exists_normal_magnitude m'
  rw [hn.unitsOfMagnitude, hn'.unitsOfMagnitude]
  have hc := hn.lt
  have hc' := hn'.lt
  rcases lt_trichotomy s s' with hs | rfl | hs
  · have hfull : 2 ^ 52 ≤ c' := hn'.full.resolve_right (by omega)
    calc c * 2 ^ s < 2 ^ 53 * 2 ^ s := Nat.mul_lt_mul_of_pos_right hc (Nat.two_pow_pos s)
      _ = 2 ^ 52 * 2 ^ (s + 1) := by rw [pow_succ]; ring
      _ ≤ c' * 2 ^ s' := Nat.mul_le_mul hfull (Nat.pow_le_pow_right (by norm_num) hs)
  · exact Nat.mul_lt_mul_of_pos_right (by omega) (Nat.two_pow_pos s)
  · have hfull : 2 ^ 52 ≤ c := hn.full.resolve_right (by omega)
    omega

/-- The units of rounded quotients are in the order of the quotients. -/
theorem units_ofQuotient_mono (s s' : Bool) (hden : 0 < den) (hden' : 0 < den')
    (h : num * den' ≤ num' * den) :
    (ofQuotient s num den).units ≤ (ofQuotient s' num' den').units := by
  rw [ofQuotient, ofQuotient, units_ofMagnitude s (nearestMagnitude_le num den),
    units_ofMagnitude s' (nearestMagnitude_le num' den')]
  exact unitsOfMagnitude_strictMono.monotone (nearestMagnitude_mono hden hden' h)

end Order

/-! ### Binary fractions -/

section Fractions

variable {k j : ℕ}

/-- A binary fraction of at most 53 digits is its own rounding. -/
theorem exact_ofQuotient_two_pow (s : Bool) (hk : k ≤ 2 ^ 53) (hj : j ≤ 1074) :
    (ofQuotient s k (2 ^ j)).isFinite = true ∧
      (ofQuotient s k (2 ^ j)).units * 2 ^ j = k * unitsPerOne := by
  have hsplit : unitsPerOne = 2 ^ (1074 - j) * 2 ^ j := by
    rw [unitsPerOne_eq, two_pow_eq_mul (Nat.sub_add_cancel hj)]
  have hexact : k * unitsPerOne = 2 ^ j * (k * 2 ^ (1074 - j)) := by
    rw [hsplit]
    ring
  have hlt : k * 2 ^ (1074 - j) < 2 ^ 2098 := by
    calc k * 2 ^ (1074 - j) ≤ 2 ^ 53 * 2 ^ 1074 :=
          Nat.mul_le_mul hk (pow_le_pow_right₀ (by norm_num) (by omega))
      _ < 2 ^ 2098 := by
        rw [← pow_add]
        exact pow_lt_pow_right₀ (by norm_num) (by norm_num)
  have hrep := representable_of_le hk (1074 - j)
  refine ⟨?_, ?_⟩
  · rw [isFinite_ofQuotient s hrep (by positivity) hexact]
    exact decide_eq_true hlt
  · rw [units_ofQuotient s hrep (by positivity) hexact hlt, hexact, Nat.mul_comm]

/-- A whole number up to `2 ^ 53` is its own rounding. -/
theorem exact_ofNat (hk : k ≤ 2 ^ 53) :
    (ofNat k).isFinite = true ∧ (ofNat k).units = k * unitsPerOne :=
  exact_whole false (representable_whole hk)
    (whole_units_lt (hk.trans_lt (pow_lt_pow_right₀ (by norm_num) (by norm_num))))

theorem isZero_ofNat (hk : k ≤ 2 ^ 53) (hpos : 0 < k) : (ofNat k).isZero = false := by
  rw [isZero, beq_eq_false_iff_ne]
  intro hzero
  have hunits := (exact_ofNat hk).2
  rw [units, hzero] at hunits
  exact absurd hunits (Nat.mul_pos hpos unitsPerOne_pos).ne

end Fractions

/-! ### Quotients with a sign -/

section Ratios

variable {a b z z' : ℤ} {den den' j n : ℕ}

/-- The double nearest to the quotient of an integer by a natural number; zero is positive. -/
def ofRatio (z : ℤ) (den : ℕ) : Binary64 := ofQuotient (decide (z < 0)) z.natAbs den

@[simp] theorem negative_ofRatio (z : ℤ) (den : ℕ) : (ofRatio z den).negative = decide (z < 0) :=
  negative_ofQuotient _ _ _

theorem ofRatio_natCast (n den : ℕ) : ofRatio n den = ofQuotient false n den := by
  rw [ofRatio, Int.natAbs_natCast, decide_eq_false (by omega)]

theorem ofRatio_zero (hden : 0 < den) : ofRatio 0 den = zero := by
  rw [show (0 : ℤ) = (0 : ℕ) from rfl, ofRatio_natCast, ← Nat.zero_mul den]
  nth_rewrite 2 [← Nat.one_mul den]
  rw [ofQuotient_mul_right false 0 1 hden]
  simp [ofQuotient, nearestMagnitude, roundDiv, zero]

theorem ofRatio_congr (hden : 0 < den) (hden' : 0 < den') (h : z * den' = z' * den) :
    ofRatio z den = ofRatio z' den' := by
  have hsign : z < 0 ↔ z' < 0 := by
    have hpos : (0 : ℤ) < den := by exact_mod_cast hden
    have hpos' : (0 : ℤ) < den' := by exact_mod_cast hden'
    rw [← mul_lt_mul_iff_left₀ hpos', h, zero_mul, ← mul_lt_mul_iff_left₀ (b := z') hpos, zero_mul]
  have habs : z.natAbs * den' = z'.natAbs * den := by
    simpa only [Int.natAbs_mul, Int.natAbs_natCast] using congrArg Int.natAbs h
  rw [ofRatio, ofRatio, decide_eq_decide.2 hsign, ofQuotient_congr _ hden hden' habs]

theorem isFinite_ofRatio (hz : z.natAbs ≤ 2 ^ 53) (hj : j ≤ 1074) :
    (ofRatio z (2 ^ j)).isFinite = true :=
  (exact_ofQuotient_two_pow _ hz hj).1

theorem units_ofRatio (hz : z.natAbs ≤ 2 ^ 53) (hj : j ≤ 1074) :
    (ofRatio z (2 ^ j)).units * 2 ^ j = z.natAbs * unitsPerOne :=
  (exact_ofQuotient_two_pow _ hz hj).2

theorem signedUnits_ofRatio (hz : z.natAbs ≤ 2 ^ 53) (hj : j ≤ 1074) :
    (ofRatio z (2 ^ j)).signedUnits * 2 ^ j = z * unitsPerOne := by
  have hunits : ((ofRatio z (2 ^ j)).units : ℤ) * 2 ^ j = |z| * unitsPerOne := by
    rw [← Int.natCast_natAbs]
    exact_mod_cast units_ofRatio hz hj
  rw [signedUnits, negative_ofRatio]
  by_cases hneg : z < 0
  · rw [decide_eq_true hneg, if_pos rfl, neg_mul, hunits, abs_of_neg hneg, neg_mul, neg_neg]
  · rw [decide_eq_false hneg, if_neg Bool.false_ne_true, hunits, abs_of_nonneg (not_lt.1 hneg)]

/-- A binary fraction of at most 53 digits keeps its value. -/
theorem toRat_ofRatio (hz : z.natAbs ≤ 2 ^ 53) (hj : j ≤ 1074) :
    (ofRatio z (2 ^ j)).toRat = z / 2 ^ j := by
  have hpos : (unitsPerOne : ℚ) ≠ 0 := by exact_mod_cast unitsPerOne_pos.ne'
  rw [toRat, div_eq_div_iff hpos (by positivity)]
  exact_mod_cast signedUnits_ofRatio hz hj

/-- The sum of binary fractions is rounded once. -/
theorem add_ofRatio (ha : a.natAbs ≤ 2 ^ 53) (hb : b.natAbs ≤ 2 ^ 53) (hj : j ≤ 1074) :
    (ofRatio a (2 ^ j)).add (ofRatio b (2 ^ j)) = ofRatio (a + b) (2 ^ j) := by
  have hafinite := isFinite_ofRatio ha hj
  have hbfinite := isFinite_ofRatio hb hj
  have htotal : ((ofRatio a (2 ^ j)).signedUnits + (ofRatio b (2 ^ j)).signedUnits) * (2 ^ j : ℕ) =
      (a + b) * unitsPerOne := by
    push_cast
    rw [add_mul, signedUnits_ofRatio ha hj, signedUnits_ofRatio hb hj, add_mul]
  simp only [add, isNaN_of_isFinite hafinite, isNaN_of_isFinite hbfinite,
    isInfinite_of_isFinite hafinite, isInfinite_of_isFinite hbfinite, negative_ofRatio,
    Bool.or_self, Bool.false_eq_true, if_false]
  split_ifs with hzero
  · -- a sum of zero has a zero or a side that is not negative, and so is the positive zero
    rw [hzero, zero_mul, eq_comm, mul_eq_zero, Nat.cast_eq_zero,
      or_iff_left unitsPerOne_pos.ne'] at htotal
    rw [htotal, ofRatio_zero (by positivity), zero, ← Bool.decide_and, decide_eq_false (by omega)]
  · exact ofRatio_congr unitsPerOne_pos (by positivity) htotal

/-- The quotient of a binary fraction by a whole number is rounded once. -/
theorem div_ofRatio (hz : z.natAbs ≤ 2 ^ 53) (hj : j ≤ 1074) (hn : n ≤ 2 ^ 53) (hpos : 0 < n) :
    (ofRatio z (2 ^ j)).div (ofNat n) = ofRatio z (n * 2 ^ j) := by
  have hzfinite := isFinite_ofRatio hz hj
  obtain ⟨hnfinite, hnunits⟩ := exact_ofNat hn
  have hunits : (ofRatio z (2 ^ j)).units * (n * 2 ^ j) = z.natAbs * (n * unitsPerOne) := by
    rw [mul_left_comm, units_ofRatio hz hj, mul_left_comm]
  simp only [div, isNaN_of_isFinite hzfinite, isNaN_of_isFinite hnfinite,
    isInfinite_of_isFinite hzfinite, isInfinite_of_isFinite hnfinite, isZero_ofNat hn hpos,
    negative_ofRatio, negative_ofNat, hnunits, Bool.or_self, Bool.bne_false,
    Bool.false_eq_true, if_false]
  exact ofQuotient_congr _ (Nat.mul_pos hpos unitsPerOne_pos) (by positivity) hunits

end Ratios

/-! ### Whole numbers -/

section Whole

variable {m n : ℕ}

theorem ofNat_eq_ofRatio (n : ℕ) : ofNat n = ofRatio n (2 ^ 0) := by
  rw [ofRatio_natCast, pow_zero, ofNat]

theorem ofNat_zero : ofNat 0 = zero := by
  rw [ofNat_eq_ofRatio]
  exact ofRatio_zero (by norm_num)

/-- Sums of at most 53 binary digits are exact. -/
theorem add_ofNat (h : m + n < 2 ^ 53) : (ofNat m).add (ofNat n) = ofNat (m + n) := by
  rw [ofNat_eq_ofRatio, ofNat_eq_ofRatio, ofNat_eq_ofRatio, Nat.cast_add]
  exact add_ofRatio (by omega) (by omega) (by norm_num)

/-- A quotient of whole numbers of at most 53 binary digits is rounded once. -/
theorem div_ofNat (hm : m < 2 ^ 53) (hn : n < 2 ^ 53) (hpos : 0 < n) :
    (ofNat m).div (ofNat n) = ofQuotient false m n := by
  rw [ofNat_eq_ofRatio m, div_ofRatio (by omega) (by norm_num) hn.le hpos, pow_zero, mul_one,
    ofRatio_natCast]

end Whole

/-! ### Quotients beside binary fractions -/

section Beside

variable {c n k j m : ℕ}

theorem isNaN_ofQuotient (s : Bool) (num den : ℕ) : (ofQuotient s num den).isNaN = false := by
  have hle := nearestMagnitude_le num den
  rw [ofQuotient, isNaN, magnitude_ofMagnitude s hle, decide_eq_false_iff_not]
  exact not_lt.2 hle

/-- Rounding a quotient by at most `2 ^ m` keeps it on its side of a binary fraction, if the
fraction leaves room for `m` more digits. -/
theorem le_units_ofQuotient_iff (s : Bool) (hpos : 0 < n) (hn : n ≤ 2 ^ m) (hk : k * 2 ^ m < 2 ^ 53)
    (hj : j + m ≤ 1074) :
    k * unitsPerOne ≤ (ofQuotient s c n).units * 2 ^ j ↔ k * n ≤ c * 2 ^ j := by
  have hk' : k ≤ 2 ^ 53 := (Nat.le_mul_of_pos_right k (by positivity)).trans hk.le
  constructor
  · -- below the fraction there is room for a fraction with `m` more digits
    contrapose!
    intro hlt
    have hbelow : c * 2 ^ (j + m) ≤ (k * 2 ^ m - 1) * n := by
      have hstep : (c * 2 ^ j + 1) * 2 ^ m ≤ k * n * 2 ^ m := Nat.mul_le_mul_right _ hlt
      calc c * 2 ^ (j + m) = (c * 2 ^ j + 1) * 2 ^ m - 2 ^ m := by
            rw [Nat.add_mul, Nat.one_mul, Nat.add_sub_cancel, pow_add, mul_assoc]
        _ ≤ k * n * 2 ^ m - n := tsub_le_tsub hstep hn
        _ = (k * 2 ^ m - 1) * n := by rw [Nat.sub_mul, Nat.one_mul, Nat.mul_right_comm]
    have hle :=
      Nat.mul_le_mul_right (2 ^ (j + m)) (units_ofQuotient_mono s s hpos (by positivity) hbelow)
    rw [(exact_ofQuotient_two_pow s ((Nat.sub_le _ _).trans hk.le) hj).2] at hle
    have hkpos : 0 < k * 2 ^ m :=
      Nat.mul_pos (Nat.pos_of_mul_pos_right (Nat.zero_lt_of_lt hlt)) (by positivity)
    refine Nat.lt_of_mul_lt_mul_right (a := 2 ^ m) ?_
    calc (ofQuotient s c n).units * 2 ^ j * 2 ^ m = (ofQuotient s c n).units * 2 ^ (j + m) := by
          rw [pow_add, mul_assoc]
      _ ≤ (k * 2 ^ m - 1) * unitsPerOne := hle
      _ < k * 2 ^ m * unitsPerOne := Nat.mul_lt_mul_of_pos_right (by omega) unitsPerOne_pos
      _ = k * unitsPerOne * 2 ^ m := Nat.mul_right_comm _ _ _
  · intro hle
    rw [← (exact_ofQuotient_two_pow s hk' (by omega : j ≤ 1074)).2]
    exact Nat.mul_le_mul_right _ (units_ofQuotient_mono s s (by positivity) hpos hle)

end Beside

end Binary64

end SynapseMem
